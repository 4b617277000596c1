import Scamp.Distributed.Correctness.Lifecycle
import Scamp.Distributed.Server

/-!
# `Distributed.Correctness.ServerRun` — what a step of the server does

One lemma for all steps of the threads (`next_spec`): what they do to the job list, to the lock and to the
thread. From it, in every run: a thread only has pointers to jobs that exist, one thread at most is inside
`get_job_to_work_on` or `cleanup_jobs` (`serverInv_run`), and what happens to a job is a run of the job
alone, from the state in which a request created it (`server_job_run`).
-/

namespace Scamp

open Lib
open SCAMPProto (JobStatus)

section
variable {K : Type}

/-- The thread is inside a method of the job list that calls jobs. -/
def Handler.inPass : Handler K → Bool
  | .asking _ _ => true
  | .checkingTime _ => true
  | .checkingStatus _ => true
  | _ => false

/-- The `get_job` that the thread is about to call, and how it goes on with the job. -/
def Handler.finds : Handler K → Option (ℤ × (ℕ → Handler K))
  | .received (.checkJobStatus jobId) => some (jobId, .checkingDone (int64 jobId))
  | .received (.fetchJobResult jobId) => some (jobId, .fetchingDone)
  | .received (.scampCombiner request) => some (int32 request.jobId, .combining request)
  | .received (.reportTileFailure request) => some (int32 request.jobId, .failing (int32 request.tileId))
  | .added currJobId => some (currJobId, .reporting (int64 currJobId))
  | _ => none

/-! ## One step of a thread -/

section
variable [Field K] [LinearOrder K]

/-- **The steps of a thread**, from `h` to `h'`: what becomes of the job list, and what is added to the
    histories of the jobs. -/
inductive Goes (s : Server K) : Handler K → List (JobEvent K) → JobList (Job K) → Handler K → Prop
  | invalid {args} : s.mutex = none → validateArgs args = false →
      Goes s (.received (.issueNewJob args)) [] s.jobs (.returned (.error .invalidArgument))
  | threw {args} : s.mutex = none → Job.create args s.jobs.count = none →
      Goes s (.received (.issueNewJob args)) [] s.jobs (.returned (.error .internal))
  | created {args job} : s.mutex = none → s.jobs.count < 2 ^ 31 → Job.create args s.jobs.count = some job →
      Goes s (.received (.issueNewJob args)) [.added s.jobs.count args] (s.jobs.addJob job).1
        (.added s.jobs.count)
  | unknown {h jobId next} : s.mutex = none → h.finds = some (jobId, next) → s.jobs.getJob jobId = none →
      Goes s h [] s.jobs (.returned (.error .invalidArgument))
  | found {h jobId next job} : s.mutex = none → h.finds = some (jobId, next) → s.jobs.getJob jobId = some job →
      Goes s h [] s.jobs (next job)
  | reported {jobId job} :
      Goes s (.reporting jobId job) [] s.jobs (.returned (.status jobId (s.job job).status))
  | checked {jobId job} :
      Goes s (.checkingDone jobId job) [.moved job (.isDone, .answer (s.job job).isDone.2)]
        (s.jobs.setTask job (s.job job).isDone.1) (.reporting jobId job)
  | done {job} : (s.job job).isDone.2 = true →
      Goes s (.fetchingDone job) [.moved job (.isDone, .answer true)]
        (s.jobs.setTask job (s.job job).isDone.1) (.copying job)
  | notDone {job} : (s.job job).isDone.2 = false →
      Goes s (.fetchingDone job) [.moved job (.isDone, .answer false)]
        (s.jobs.setTask job (s.job job).isDone.1) (.returned (.work none))
  | copied {job} : Goes s (.copying job) [] s.jobs (.returned (.work (some (s.job job).jobArgs)))
  | begins {throughput} : s.mutex = none →
      Goes s (.received (.requestSCAMPWork throughput)) [] s.jobs (.asking throughput 0)
  | noWork {throughput i} : s.jobs.runList.length ≤ i →
      Goes s (.asking throughput i) [] s.jobs (.returned (.work none))
  | chosen {throughput i job rest order now} : s.jobs.runList = job :: rest → i < s.jobs.runList.length →
      ((s.job job).hasWork order now).2 = true →
      Goes s (.asking throughput i) [.moved job (.hasWork order now, .answer true)]
        (s.jobs.passFront.setTask job ((s.job job).hasWork order now).1) (.fetching throughput job)
  | passed {throughput i job rest order now} : s.jobs.runList = job :: rest → i < s.jobs.runList.length →
      ((s.job job).hasWork order now).2 = false →
      Goes s (.asking throughput i) [.moved job (.hasWork order now, .answer false)]
        (s.jobs.passFront.setTask job ((s.job job).hasWork order now).1) (.asking throughput (i + 1))
  | fetched {throughput job order now job' args} :
      (s.job job).fetchReadyTile order now throughput = some (job', args) →
      Goes s (.fetching throughput job) [.moved job (.fetchReadyTile order now throughput, .work args)]
        (s.jobs.setTask job job') (.returned (.work args))
  | combined {request job now job' merged} : (s.job job).combineProfile request now = some (job', merged) →
      Goes s (.combining request job) [.moved job (.combineProfile request now, .answer merged)]
        (s.jobs.setTask job job') (.returned .result)
  | failed {tileId job now} :
      Goes s (.failing tileId job) [.moved job (.setTileFailed tileId now, .nothing)]
        (s.jobs.setTask job ((s.job job).setTileFailed tileId now)) (.returned .result)
  | sweeps : s.mutex = none → Goes s (.received .cleanup) [] s.jobs (.checkingTime 0)
  | swept {iter} : s.jobs.runList.length ≤ iter → Goes s (.checkingTime iter) [] s.jobs (.returned .result)
  | timed {iter job now} : s.jobs.runList[iter]? = some job →
      Goes s (.checkingTime iter) [.moved job (.checkTimeTile now, .nothing)]
        (s.jobs.setTask job ((s.job job).checkTimeTile now)) (.checkingStatus iter)
  | erased {iter job} : s.jobs.runList[iter]? = some job → (s.job job).status ≠ .running →
      Goes s (.checkingStatus iter) [] (s.jobs.eraseAt iter) (.checkingTime iter)
  | kept {iter job} : s.jobs.runList[iter]? = some job → (s.job job).status = .running →
      Goes s (.checkingStatus iter) [] s.jobs (.checkingTime (iter + 1))

/-- What a step of thread `n` does: to the thread, to the job list, and to the lock of the list. -/
structure StepSpec (n : ℕ) (s : Server K) (h : Handler K) (s' : Server K) (events : List (JobEvent K))
    (h' : Handler K) : Prop where
  handler : s'.handler = Function.update s.handler n (some h')
  goes : Goes s h events s'.jobs h'
  mutex : s'.mutex = if h.inPass then if h'.inPass then s.mutex else none
    else if h'.inPass then some n else s.mutex

theorem lt_of_getJob {J : Type} {l : JobList J} {jobId : ℤ} {id : ℕ} (h : l.getJob jobId = some id) :
    id < l.count ∧ (id : ℤ) = int32 jobId := by
  unfold JobList.getJob at h
  dsimp only at h
  split at h
  · next hkey =>
      obtain rfl := Option.some.inj h
      omega
  · cases h

omit [Field K] [LinearOrder K] in
/-- The thread keeps no lock when it looks for a job. -/
theorem inPass_of_finds {h : Handler K} {jobId : ℤ} {next : ℕ → Handler K} (hfinds : h.finds = some (jobId, next)) :
    h.inPass = false ∧ ∀ id, (next id).inPass = false ∧ (next id).pointsTo = some id := by
  unfold Handler.finds at hfinds
  split at hfinds
  all_goals first
    | (cases hfinds; done)
    | (obtain ⟨rfl, rfl⟩ := Prod.mk.inj (Option.some.inj hfinds)
       exact ⟨rfl, fun _ => ⟨rfl, rfl⟩⟩)

theorem getJobThen_spec {n : ℕ} {s s' : Server K} {h : Handler K} {jobId : ℤ} {next : ℕ → Handler K}
    {events : List (JobEvent K)} (hstep : getJobThen n s jobId next = some (s', events))
    (hfinds : h.finds = some (jobId, next)) : ∃ h', StepSpec n s h s' events h' := by
  obtain ⟨hpass, hnext⟩ := inPass_of_finds hfinds
  unfold getJobThen at hstep
  split at hstep
  · cases hstep
  · next hfree =>
      have hnone : s.mutex = none := by simpa using hfree
      split at hstep
      · next hjob =>
          obtain ⟨rfl, rfl⟩ := Prod.mk.inj (Option.some.inj hstep)
          refine ⟨_, rfl, .unknown hnone hfinds hjob, ?_⟩
          rw [hpass]
          rfl
      · next job hjob =>
          obtain ⟨rfl, rfl⟩ := Prod.mk.inj (Option.some.inj hstep)
          refine ⟨_, rfl, .found hnone hfinds hjob, ?_⟩
          rw [hpass, (hnext job).1]
          rfl

/-- **What the first step of a handler does.** -/
theorem request_spec {n : ℕ} {s s' : Server K} {request : Request K} {events : List (JobEvent K)}
    (hstep : request.next n s = some (s', events)) : ∃ h', StepSpec n s (.received request) s' events h' := by
  cases request with
  | issueNewJob args =>
      simp only [Request.next] at hstep
      split at hstep
      · cases hstep
      · next hfree =>
          rw [not_or, not_le] at hfree
          have hnone : s.mutex = none := by simpa using hfree.1
          split at hstep
          · next hvalid =>
              obtain ⟨rfl, rfl⟩ := Prod.mk.inj (Option.some.inj hstep)
              exact ⟨_, rfl, .invalid hnone (by simpa using hvalid), rfl⟩
          · split at hstep
            · next hjob =>
                obtain ⟨rfl, rfl⟩ := Prod.mk.inj (Option.some.inj hstep)
                exact ⟨_, rfl, .threw hnone hjob, rfl⟩
            · next job hjob =>
                obtain ⟨rfl, rfl⟩ := Prod.mk.inj (Option.some.inj hstep)
                exact ⟨_, rfl, .created hnone hfree.2 hjob, rfl⟩
  | checkJobStatus jobId =>
      simp only [Request.next] at hstep
      exact getJobThen_spec hstep rfl
  | fetchJobResult jobId =>
      simp only [Request.next] at hstep
      exact getJobThen_spec hstep rfl
  | requestSCAMPWork expectedThroughput =>
      simp only [Request.next] at hstep
      split at hstep
      · cases hstep
      · next hfree =>
          obtain ⟨rfl, rfl⟩ := Prod.mk.inj (Option.some.inj hstep)
          exact ⟨_, rfl, .begins (by simpa using hfree), rfl⟩
  | scampCombiner request =>
      simp only [Request.next] at hstep
      exact getJobThen_spec hstep rfl
  | reportTileFailure request =>
      simp only [Request.next] at hstep
      exact getJobThen_spec hstep rfl
  | cleanup =>
      simp only [Request.next] at hstep
      split at hstep
      · cases hstep
      · next hfree =>
          obtain ⟨rfl, rfl⟩ := Prod.mk.inj (Option.some.inj hstep)
          exact ⟨_, rfl, .sweeps (by simpa using hfree), rfl⟩

/-- **What a step of a thread does.** -/
theorem next_spec {m : Moment} {n : ℕ} {s s' : Server K} {h : Handler K} {events : List (JobEvent K)}
    (hstep : h.next m n s = some (s', events)) : ∃ h', StepSpec n s h s' events h' := by
  cases h with
  | received request => exact request_spec hstep
  | added currJobId =>
      simp only [Handler.next] at hstep
      exact getJobThen_spec hstep rfl
  | reporting jobId job =>
      obtain ⟨rfl, rfl⟩ := Prod.mk.inj (Option.some.inj hstep)
      exact ⟨_, rfl, .reported, rfl⟩
  | checkingDone jobId job =>
      obtain ⟨rfl, rfl⟩ := Prod.mk.inj (Option.some.inj hstep)
      exact ⟨_, rfl, .checked, rfl⟩
  | fetchingDone job =>
      simp only [Handler.next] at hstep
      obtain ⟨rfl, rfl⟩ := Prod.mk.inj (Option.some.inj hstep)
      cases hdone : (s.job job).isDone.2 with
      | true => exact ⟨_, rfl, .done hdone, rfl⟩
      | false => exact ⟨_, rfl, .notDone hdone, rfl⟩
  | copying job =>
      obtain ⟨rfl, rfl⟩ := Prod.mk.inj (Option.some.inj hstep)
      exact ⟨_, rfl, .copied, rfl⟩
  | asking expectedThroughput i =>
      simp only [Handler.next] at hstep
      split at hstep
      · next hempty =>
          obtain ⟨rfl, rfl⟩ := Prod.mk.inj (Option.some.inj hstep)
          exact ⟨_, rfl, .noWork (by simp [hempty]), rfl⟩
      · next job rest hlist =>
          split at hstep
          · next hi =>
              split at hstep
              · next hwork =>
                  obtain ⟨rfl, rfl⟩ := Prod.mk.inj (Option.some.inj hstep)
                  rw [hwork]
                  exact ⟨_, rfl, .chosen hlist hi hwork, rfl⟩
              · next hwork =>
                  obtain ⟨rfl, rfl⟩ := Prod.mk.inj (Option.some.inj hstep)
                  rw [Bool.not_eq_true] at hwork
                  rw [hwork]
                  exact ⟨_, rfl, .passed hlist hi hwork, rfl⟩
          · next hi =>
              obtain ⟨rfl, rfl⟩ := Prod.mk.inj (Option.some.inj hstep)
              exact ⟨_, rfl, .noWork (not_lt.mp hi), rfl⟩
  | fetching expectedThroughput job =>
      obtain ⟨r, hfetch, heq⟩ := Option.map_eq_some_iff.mp hstep
      obtain ⟨rfl, rfl⟩ := Prod.mk.inj heq
      exact ⟨_, rfl, .fetched hfetch, rfl⟩
  | combining request job =>
      obtain ⟨r, hcombine, heq⟩ := Option.map_eq_some_iff.mp hstep
      obtain ⟨rfl, rfl⟩ := Prod.mk.inj heq
      exact ⟨_, rfl, .combined hcombine, rfl⟩
  | failing tileId job =>
      obtain ⟨rfl, rfl⟩ := Prod.mk.inj (Option.some.inj hstep)
      exact ⟨_, rfl, .failed, rfl⟩
  | checkingTime iter =>
      simp only [Handler.next] at hstep
      split at hstep
      · next hnone =>
          obtain ⟨rfl, rfl⟩ := Prod.mk.inj (Option.some.inj hstep)
          exact ⟨_, rfl, .swept (List.getElem?_eq_none_iff.mp hnone), rfl⟩
      · next job hjob =>
          obtain ⟨rfl, rfl⟩ := Prod.mk.inj (Option.some.inj hstep)
          exact ⟨_, rfl, .timed hjob, rfl⟩
  | checkingStatus iter =>
      simp only [Handler.next] at hstep
      split at hstep
      · cases hstep
      · next job hjob =>
          split at hstep
          · next hstatus =>
              obtain ⟨rfl, rfl⟩ := Prod.mk.inj (Option.some.inj hstep)
              exact ⟨_, rfl, .erased hjob hstatus, rfl⟩
          · next hstatus =>
              obtain ⟨rfl, rfl⟩ := Prod.mk.inj (Option.some.inj hstep)
              exact ⟨_, rfl, .kept hjob (not_not.mp hstatus), rfl⟩
  | returned response => cases hstep

/-! ## What becomes of the job list -/

/-- What a step of a thread may do to the job list. -/
inductive Touches (s : Server K) (h : Handler K) : List (JobEvent K) → JobList (Job K) → Prop
  | nothing : Touches s h [] s.jobs
  | created {args job} : s.mutex = none → s.jobs.count < 2 ^ 31 → Job.create args s.jobs.count = some job →
      Touches s h [.added s.jobs.count args] (s.jobs.addJob job).1
  | called {id call reply job} : h.pointsTo = some id ∨ id ∈ s.jobs.runList →
      (s.job id).call call = some (job, reply) →
      Touches s h [.moved id (call, reply)] (s.jobs.setTask id job)
  | asked {id call reply job} : h.inPass = true → id ∈ s.jobs.runList →
      (s.job id).call call = some (job, reply) →
      Touches s h [.moved id (call, reply)] (s.jobs.passFront.setTask id job)
  | dropped {iter id} : h.inPass = true → s.jobs.runList[iter]? = some id → (s.job id).status ≠ .running →
      Touches s h [] (s.jobs.eraseAt iter)

variable {s : Server K} {h h' : Handler K} {events : List (JobEvent K)} {jobs : JobList (Job K)}

/-- Every step of a thread is one of these. -/
theorem Goes.touches (hgoes : Goes s h events jobs h') : Touches s h events jobs := by
  cases hgoes with
  | created hfree hcount hjob => exact .created hfree hcount hjob
  | checked => exact .called (Or.inl rfl) rfl
  | done hdone => exact .called (Or.inl rfl) (by simp only [Job.call, hdone])
  | notDone hdone => exact .called (Or.inl rfl) (by simp only [Job.call, hdone])
  | chosen hlist _ hwork =>
      exact .asked rfl (hlist ▸ List.mem_cons_self) (by simp only [Job.call, hwork])
  | passed hlist _ hwork =>
      exact .asked rfl (hlist ▸ List.mem_cons_self) (by simp only [Job.call, hwork])
  | fetched hfetch => exact .called (Or.inl rfl) (by simp only [Job.call, hfetch, Option.map_some])
  | combined hcombine => exact .called (Or.inl rfl) (by simp only [Job.call, hcombine, Option.map_some])
  | failed => exact .called (Or.inl rfl) rfl
  | timed hjob => exact .called (Or.inr (List.mem_of_getElem? hjob)) rfl
  | erased hjob hstatus => exact .dropped rfl hjob hstatus
  | _ => exact .nothing

/-- The thread gets its pointers from `get_job` and from the run list. -/
theorem Goes.pointsTo (hgoes : Goes s h events jobs h') {id : ℕ} (hid : h'.pointsTo = some id) :
    h.pointsTo = some id ∨ id < s.jobs.count := by
  cases hgoes with
  | found _ hfinds hjob =>
      rw [((inPass_of_finds hfinds).2 _).2, Option.some.injEq] at hid
      exact Or.inr (hid ▸ (lt_of_getJob hjob).1)
  | checked => exact Or.inl hid
  | done _ => exact Or.inl hid
  | chosen hlist _ _ =>
      refine Or.inr (s.jobs.known id ?_)
      rw [← Option.some.inj hid, hlist]
      exact List.mem_cons_self
  | _ => cases hid

/-- No step removes a job. -/
theorem Touches.count_le (ht : Touches s h events jobs) : s.jobs.count ≤ jobs.count := by
  cases ht with
  | created => exact Nat.le_succ _
  | _ => exact le_refl _

/-- A thread takes the lock of the list when it is free. -/
theorem Goes.takes (hgoes : Goes s h events jobs h') (hpass : h.inPass = false) (hpass' : h'.inPass = true) :
    s.mutex = none := by
  cases hgoes with
  | found hfree _ _ => exact hfree
  | begins hfree => exact hfree
  | sweeps hfree => exact hfree
  | _ => first | (cases hpass; done) | cases hpass'

end

/-! ## One step of the server -/

section
variable [Field K] [LinearOrder K] {s s' : Server K} {h h' : Handler K} {events : List (JobEvent K)}
variable {jobs : JobList (Job K)}

/-- **What a step of a thread does to one job**: nothing, or a call. -/
theorem Touches.job_cases (ht : Touches s h events jobs) {id : ℕ} (hid : id < s.jobs.count) :
    jobs.task id = s.job id ∨ ∃ call reply, events = [.moved id (call, reply)] ∧
      (s.job id).call call = some (jobs.task id, reply) := by
  have hupdate : ∀ k call reply job, (s.job k).call call = some (job, reply) → events = [.moved k (call, reply)] →
      Function.update s.jobs.task k job id = s.job id ∨ ∃ call reply, events = [.moved id (call, reply)] ∧
        (s.job id).call call = some (Function.update s.jobs.task k job id, reply) := by
    intro k call reply job hcall hevents
    by_cases hk : id = k
    · subst hk
      exact Or.inr ⟨call, reply, hevents, by rw [hcall, Function.update_self]⟩
    · exact Or.inl (Function.update_of_ne hk ..)
  cases ht with
  | nothing => exact Or.inl rfl
  | created => exact Or.inl (Function.update_of_ne (Nat.ne_of_lt hid) ..)
  | called _ hcall => exact hupdate _ _ _ _ hcall rfl
  | asked _ _ hcall => exact hupdate _ _ _ _ hcall rfl
  | dropped => exact Or.inl rfl

/-- **What a step of the server does to one job**: nothing, or a call. -/
theorem step_job (hstep : Server.Step s events s') {id : ℕ} (hid : id < s.jobs.count) :
    s'.job id = s.job id ∨ ∃ call reply, (events = [.moved id (call, reply)] ∧ call.Orders (s.job id)) ∧
      (s.job id).call call = some (s'.job id, reply) := by
  cases hstep with
  | arrives => exact Or.inl rfl
  | handles _ hnext horders =>
      obtain ⟨h', -, hgoes, -⟩ := next_spec hnext
      refine (hgoes.touches.job_cases hid).imp_right ?_
      rintro ⟨call, reply, hevents, hcall⟩
      exact ⟨call, reply, ⟨hevents, horders id (call, reply) (by simp [hevents])⟩, hcall⟩

theorem step_count_le (hstep : Server.Step s events s') : s.jobs.count ≤ s'.jobs.count := by
  cases hstep with
  | arrives => exact le_refl _
  | handles _ hnext _ =>
      obtain ⟨h', -, hgoes, -⟩ := next_spec hnext
      exact hgoes.touches.count_le

/-- A job that was not there before has just been created. -/
theorem new_job (hstep : Server.Step s events s') {id : ℕ} (hold : s.jobs.count ≤ id) (hid : id < s'.jobs.count) :
    ∃ args, events = [.added id args] ∧ id = s.jobs.count ∧ Job.create args id = some (s'.job id) := by
  cases hstep with
  | arrives => exact absurd hid (not_lt.mpr hold)
  | @handles n h m s' events hn hnext _ =>
      obtain ⟨h', -, hgoes, -⟩ := next_spec hnext
      have ht := hgoes.touches
      unfold Server.job
      generalize s'.jobs = jobs at ht hid ⊢
      cases ht with
      | @created args job _ _ hjob =>
          obtain rfl : id = s.jobs.count := le_antisymm (Nat.lt_succ_iff.mp hid) hold
          refine ⟨args, rfl, rfl, ?_⟩
          simpa [JobList.addJob] using hjob
      | _ => exact absurd hid (not_lt.mpr hold)

/-- A thread stays where it is or takes a step. -/
theorem handler_step (hstep : Server.Step s events s') {n : ℕ} (hn : s.handler n = some h) :
    s'.handler n = some h ∨ ∃ h', s'.handler n = some h' ∧ Goes s h events s'.jobs h' := by
  cases hstep with
  | @arrives k request hnone =>
      have hne : n ≠ k := by
        rintro rfl
        rw [hnone] at hn
        cases hn
      exact Or.inl (by simp only [Server.goto, Function.update_of_ne hne, hn])
  | @handles k g m s' events hk hnext _ =>
      obtain ⟨h', hhandler, hgoes, -⟩ := next_spec hnext
      rw [hhandler]
      by_cases hne : n = k
      · subst hne
        obtain rfl := Option.some.inj (hn.symm.trans hk)
        exact Or.inr ⟨h', by simp, hgoes⟩
      · exact Or.inl (by rw [Function.update_of_ne hne, hn])

/-- **What holds of each thread** is kept when it holds of a request that arrives, when the threads that stay
    where they are keep it, and when a step of the thread does. -/
theorem threads_step {P Q : ℕ → Handler K → Prop} (hstep : Server.Step s events s')
    (hP : ∀ n h, s.handler n = some h → P n h)
    (hreceived : ∀ n request, s.handler n = none → Q n (.received request))
    (hmono : ∀ n h, s.handler n = some h → s'.handler n = some h → P n h → Q n h)
    (hgoes : ∀ n h h', s.handler n = some h → P n h → Goes s h events s'.jobs h' → Q n h') :
    ∀ n h, s'.handler n = some h → Q n h := by
  intro k g hk
  cases hh : s.handler k with
  | some h =>
      rcases handler_step hstep hh with hsame | ⟨h', hmoved, hstep⟩
      · obtain rfl := Option.some.inj (hk.symm.trans hsame)
        exact hmono k g hh hsame (hP k g hh)
      · obtain rfl := Option.some.inj (hk.symm.trans hmoved)
        exact hgoes k h g hh (hP k h hh) hstep
  | none =>
      cases hstep with
      | @arrives n request hnone =>
          by_cases hkn : k = n
          · subst hkn
            simp only [Server.goto, Function.update_self, Option.some.injEq] at hk
            exact hk ▸ hreceived k request hnone
          · simp only [Server.goto, Function.update_of_ne hkn, hh] at hk
            cases hk
      | @handles n h m s' events hn hnext _ =>
          obtain ⟨h', hhandler, -, -⟩ := next_spec hnext
          have hkn : k ≠ n := by
            rintro rfl
            rw [hh] at hn
            cases hn
          rw [hhandler, Function.update_of_ne hkn, hh] at hk
          cases hk

end

section
variable [Field K] [LinearOrder K]

/-! ## Runs -/

/-- What holds of the threads in every run: they point to jobs that exist, and the one inside a method of the
    list that calls jobs is the one that holds the lock of the list. -/
structure ServerInv (s : Server K) : Prop where
  known : ∀ n h id, s.handler n = some h → h.pointsTo = some id → id < s.jobs.count
  mutex : ∀ n h, s.handler n = some h → (h.inPass = true ↔ s.mutex = some n)
  holder : ∀ n, s.mutex = some n → ∃ h, s.handler n = some h

omit [LinearOrder K] in
theorem serverInv_start : ServerInv (Server.start : Server K) where
  known _ _ _ h := nomatch h
  mutex _ _ h := nomatch h
  holder _ h := nomatch h

omit [Field K] [LinearOrder K] in
@[simp] theorem goto_handler (s : Server K) (n : ℕ) (h : Handler K) :
    (s.goto n h).handler = Function.update s.handler n (some h) := rfl

/-- **Every step keeps the invariant of the threads.** -/
theorem serverInv_step {s s' : Server K} {events : List (JobEvent K)} (hs : ServerInv s)
    (hstep : Server.Step s events s') : ServerInv s' := by
  refine ⟨?_, ?_, ?_⟩
  · have hknown : ∀ n h, s.handler n = some h → ∀ id, h.pointsTo = some id → id < s.jobs.count :=
      fun n h hn id => hs.known n h id hn
    have hknown' := threads_step (P := fun _ h => ∀ id, h.pointsTo = some id → id < s.jobs.count)
      (Q := fun _ h => ∀ id, h.pointsTo = some id → id < s'.jobs.count) hstep hknown (fun _ _ _ _ => nofun)
      (fun _ _ _ _ hold id hid => (hold id hid).trans_le (step_count_le hstep))
      fun _ _ _ _ hold hgoes id hid =>
        ((hgoes.pointsTo hid).elim (hold id) fun hlt => hlt).trans_le (step_count_le hstep)
    exact fun n h id hn => hknown' n h hn id
  · cases hstep with
    | @arrives n request hnone =>
        intro k g hk
        by_cases hkn : k = n
        · subst hkn
          simp only [goto_handler, Function.update_self, Option.some.injEq] at hk
          subst hk
          refine iff_of_false (by simp [Handler.inPass]) fun hm => ?_
          obtain ⟨h, hh⟩ := hs.holder k hm
          rw [hnone] at hh
          cases hh
        · rw [goto_handler, Function.update_of_ne hkn] at hk
          exact hs.mutex k g hk
    | @handles n h m s' events hn hnext _ =>
        obtain ⟨h', hhandler, hgoes, hmutex⟩ := next_spec hnext
        have hpass := hs.mutex n h hn
        have htakes := hgoes.takes
        intro k g hk
        rw [hhandler] at hk
        rw [hmutex]
        by_cases hkn : k = n
        · subst hkn
          simp only [Function.update_self, Option.some.injEq] at hk
          subst hk
          cases hp : h.inPass <;> cases hp' : h'.inPass <;> simp_all
        · rw [Function.update_of_ne hkn] at hk
          have hother := hs.mutex k g hk
          have hne : n ≠ k := fun heq => hkn heq.symm
          cases hp : h.inPass <;> cases hp' : h'.inPass <;> simp_all
  · cases hstep with
    | @arrives n request hnone =>
        intro k hk
        obtain ⟨h, hh⟩ := hs.holder k hk
        by_cases hkn : k = n
        · exact ⟨_, by simp [hkn]; rfl⟩
        · exact ⟨h, by rw [goto_handler, Function.update_of_ne hkn, hh]⟩
    | @handles n h m s' events hn hnext _ =>
        obtain ⟨h', hhandler, hgoes, hmutex⟩ := next_spec hnext
        intro k hk
        rw [hhandler]
        by_cases hkn : k = n
        · exact ⟨h', by simp [hkn]⟩
        · rw [Function.update_of_ne hkn]
          rw [hmutex] at hk
          refine hs.holder k ?_
          cases hp : h.inPass <;> cases hp' : h'.inPass <;> simp_all

theorem serverInv_run {labels : List (List (JobEvent K))} {s : Server K} (hrun : Server.Run labels s) :
    ServerInv s :=
  hrun.inv (I := fun _ s => ServerInv s) serverInv_start fun _ _ _ _ _ hs hstep => serverInv_step hs hstep

/-! ## Jobs -/

/-- The jobs of the server, as a family. -/
def Server.family (s : Server K) (id : ℕ) : Option (Job K) := if id < s.jobs.count then some (s.job id) else none

/-- How a job is created. -/
def JobNew (id : ℕ) (args : SCAMPProto.SCAMPArgs K) (job : Job K) : Prop := Job.create args id = some job

/-- A call of a job on the server that meets a condition. -/
def JobStep (P : Job K → Call K → Prop) (_id : ℕ) : Job K → Call K × Reply K → Job K → Prop := CallStep P

omit [Field K] [LinearOrder K] in
theorem family_setTask (s : Server K) {id : ℕ} (hid : id < s.jobs.count) (job : Job K) :
    (fun k => if k < s.jobs.count then some (Function.update s.jobs.task id job k) else none) =
      Function.update s.family id (some job) := by
  funext k
  by_cases hk : k = id
  · subst hk
    simp [hid]
  · simp [hk, Server.family, Server.job]

/-- **What a step of a thread does to the jobs**: nothing, or one of them is created or called. -/
theorem Touches.happens {P : Job K → Call K → Prop} {s s' : Server K} {h : Handler K} {events : List (JobEvent K)}
    (ht : Touches s h events s'.jobs) (hknown : ∀ id, h.pointsTo = some id → id < s.jobs.count)
    (hP : ∀ id call, .moved id call ∈ events → call.1.Orders (s.job id) ∧ P (s.job id) call.1) :
    (events = [] ∧ s'.family = s.family) ∨
      ∃ e, events = [e] ∧ Happens JobNew (JobStep P) s.family e s'.family := by
  have hfamily : s'.family = fun k => if k < s'.jobs.count then some (s'.jobs.task k) else none := rfl
  rw [hfamily]
  have hsame : ∀ id job call reply, id < s.jobs.count → (s.job id).call call = some (job, reply) →
      events = [.moved id (call, reply)] → Happens JobNew (JobStep P) s.family (.moved id (call, reply))
        (fun k => if k < s.jobs.count then some (Function.update s.jobs.task id job k) else none) := by
    intro id job call reply hid hcall hevents
    rw [family_setTask s hid]
    obtain ⟨horders, hallowed⟩ := hP id (call, reply) (by simp [hevents])
    exact .moved (if_pos hid) ⟨horders, hallowed, hcall⟩
  generalize s'.jobs = jobs at ht ⊢
  cases ht with
  | nothing => exact Or.inl ⟨rfl, rfl⟩
  | @created args job _ _ hjob =>
      refine Or.inr ⟨_, rfl, ?_⟩
      have hnew : (fun k => if k < (s.jobs.addJob job).1.count then some ((s.jobs.addJob job).1.task k) else none) =
          Function.update s.family s.jobs.count (some job) := by
        funext k
        by_cases hk : k = s.jobs.count
        · subst hk
          simp [JobList.addJob]
        · have hlt : k < s.jobs.count + 1 ↔ k < s.jobs.count := by omega
          simp [hk, JobList.addJob, Server.family, Server.job, hlt]
      rw [hnew]
      exact .added (if_neg (Nat.lt_irrefl _)) hjob
  | @called id call reply job hid hcall =>
      exact Or.inr ⟨_, rfl, hsame id job call reply (hid.elim (hknown id) (s.jobs.known id)) hcall rfl⟩
  | @asked id call reply job _ hid hcall =>
      exact Or.inr ⟨_, rfl, hsame id job call reply (s.jobs.known id hid) hcall rfl⟩
  | dropped _ _ _ => exact Or.inl ⟨rfl, rfl⟩

/-- What a step of the server does to the jobs. -/
theorem step_happens {P : Job K → Call K → Prop} {s s' : Server K} {events : List (JobEvent K)} (hs : ServerInv s)
    (hstep : Server.Step s events s') (hP : ∀ id call, .moved id call ∈ events → P (s.job id) call.1) :
    (events = [] ∧ s'.family = s.family) ∨
      ∃ e, events = [e] ∧ Happens JobNew (JobStep P) s.family e s'.family := by
  cases hstep with
  | arrives hnone => exact Or.inl ⟨rfl, rfl⟩
  | @handles n h m s' events hn hnext horders =>
      obtain ⟨h', -, hgoes, -⟩ := next_spec hnext
      exact hgoes.touches.happens (fun id => hs.known n h id hn) fun id call hmem =>
        ⟨horders id call hmem, hP id call hmem⟩

/-- The jobs of a run are a family that grows. -/
theorem family_run {labels : List (List (JobEvent K))} {s : Server K} (hrun : Server.Run labels s) :
    Trace (Happens JobNew (JobStep fun _ _ => True)) (fun _ => none) labels.flatten s.family := by
  refine hrun.inv (I := fun labels s =>
    Trace (Happens JobNew (JobStep fun _ _ => True)) (fun _ => none) labels.flatten s.family) ?_ ?_
  · have hempty : (Server.start : Server K).family = fun _ => none :=
      funext fun id => if_neg (Nat.not_lt_zero id)
    rw [hempty]
    exact .nil
  · intro labels s events s' hbefore ih hstep
    rw [List.flatten_append, List.flatten_singleton]
    rcases step_happens (serverInv_run hbefore) hstep (P := fun _ _ => True) fun _ _ _ => trivial with
      ⟨rfl, hsame⟩ | ⟨e, rfl, hhappens⟩
    · rwa [List.append_nil, hsame]
    · exact ih.snoc hhappens

variable {labels : List (List (JobEvent K))} {s : Server K}

/-- A job of the server was created, and its history is a run of the job alone. -/
theorem job_run (hrun : Server.Run labels s) {id : ℕ} {args : SCAMPProto.SCAMPArgs K}
    (hadded : .added id args ∈ labels.flatten) :
    id < s.jobs.count ∧ ∃ start, Job.create args id = some start ∧
      Job.Run (fun _ _ => True) start (stepsOf id labels.flatten) (s.job id) := by
  obtain ⟨start, job, hnew, hjob, htrace⟩ := component_run (family_run hrun) hadded
  unfold Server.family at hjob
  split at hjob
  · next hid =>
      obtain rfl := Option.some.inj hjob
      exact ⟨hid, start, hnew, htrace⟩
  · cases hjob

end

end

/-! ## A server with one job -/

/-- The clock at `0`, and a job with one tile. -/
def oneTileMoment : Moment := ⟨0, fun _ => 0, [0]⟩

theorem step_oneTile {s s' : Server ℚ} {n : ℕ} {h : Handler ℚ} {events : List (JobEvent ℚ)}
    (hh : s.handler n = some h) (hnext : h.next oneTileMoment n s = some (s', events))
    (horders : ∀ id call, .moved id call ∈ events → call.1.Orders (s.job id)) : Server.Step s events s' :=
  .handles hh hnext horders

theorem step_arrives {s : Server ℚ} (n : ℕ) (request : Request ℚ) (hnone : s.handler n = none) :
    Server.Step s [] (s.goto n (.received request)) := .arrives hnone

theorem orders_none {K : Type} {s : Server K} (k : ℕ) (c : Call K × Reply K) :
    (.moved k c : JobEvent K) ∈ [] → c.1.Orders (s.job k) := fun h => absurd h List.not_mem_nil

theorem orders_added {K : Type} {s : Server K} {id : ℕ} {args : SCAMPProto.SCAMPArgs K} (k : ℕ) (c : Call K × Reply K) :
    (.moved k c : JobEvent K) ∈ [.added id args] → c.1.Orders (s.job k) := fun h => nomatch List.mem_singleton.mp h

theorem orders_one {K : Type} {s : Server K} {id : ℕ} {call : Call K × Reply K} (h : call.1.Orders (s.job id))
    (k : ℕ) (c : Call K × Reply K) : (.moved k c : JobEvent K) ∈ [.moved id call] → c.1.Orders (s.job k) := by
  intro hmem
  obtain ⟨rfl, rfl⟩ := Happening.moved.inj (List.mem_singleton.mp hmem)
  exact h

/-- A client asks for the job, a worker computes its tile, and the client asks whether it is done and fetches
    the result. -/
theorem oneTile_served : ∃ labels s labels' s' labels'' s'' response, Server.Run (K := ℚ) labels s ∧
    s.handler 3 = some (.returned (.status 0 .finished)) ∧ s.jobs.runList = [0] ∧
    Trace Server.Step s labels' s' ∧ s'.handler 4 = some (.received (.fetchJobResult 0)) ∧
    Trace Server.Step s' labels'' s'' ∧ s''.handler 4 = some (.returned response) := by
  have hissued := Trace.nil.snoc (step_arrives (s := Server.start) 0 (.issueNewJob oneTileArgs) rfl)
  have hadded := ((hissued.snoc (step_oneTile (n := 0) rfl rfl orders_added)).snoc
    (step_oneTile (n := 0) rfl rfl orders_none)).snoc (step_oneTile (n := 0) rfl rfl orders_none)
  have hrequested := hadded.snoc (step_arrives 1 (.requestSCAMPWork 1) rfl)
  have hhanded := ((hrequested.snoc (step_oneTile (n := 1) rfl rfl orders_none)).snoc
    (step_oneTile (n := 1) rfl rfl (by exact orders_one (.refl _)))).snoc
      (step_oneTile (n := 1) rfl rfl (by exact orders_one (.refl _)))
  have hcombining := hhanded.snoc (step_arrives 2 (.scampCombiner oneTileResult) rfl)
  have hmerged := (hcombining.snoc (step_oneTile (n := 2) rfl rfl orders_none)).snoc
    (step_oneTile (n := 2) rfl rfl (by exact orders_one trivial))
  have hasked := hmerged.snoc (step_arrives 3 (.checkJobStatus 0) rfl)
  have htold := ((hasked.snoc (step_oneTile (n := 3) rfl rfl orders_none)).snoc
    (step_oneTile (n := 3) rfl rfl (by exact orders_one trivial))).snoc (step_oneTile (n := 3) rfl rfl orders_none)
  refine ⟨_, _, _, _, _, _, _, htold, rfl, rfl, .single (step_arrives 4 (.fetchJobResult 0) rfl),
    rfl, ((Trace.nil.snoc (step_oneTile (n := 4) rfl rfl orders_none)).snoc
      (step_oneTile (n := 4) rfl rfl (by exact orders_one trivial))).snoc (step_oneTile (n := 4) rfl rfl orders_none), rfl⟩

/-! ## Each job alone -/

section
variable {K : Type} [Field K] [LinearOrder K] {labels : List (List (JobEvent K))} {s : Server K}

/-- **Each job on the server runs alone.** Whatever requests arrive, from whomever, and however the threads
    interleave: every job was created by one request, and what the server did to it is a run of that job
    alone from there, into which the calls of the other jobs do not enter. In particular no tile of a job is
    handed out more than `MAX_TILE_RETRIES + 2` times. -/
theorem jobs_run (hrun : Server.Run labels s) :
    (∀ id, id < s.jobs.count ↔ ∃ args, .added id args ∈ labels.flatten) ∧
      (∀ (id : ℕ) args args', .added id args ∈ labels.flatten → .added id args' ∈ labels.flatten → args = args') ∧
      ∀ (id : ℕ) args, .added id args ∈ labels.flatten → ∃ start, Job.create args id = some start ∧
        Job.Run (fun _ _ => True) start (stepsOf id labels.flatten) (s.job id) ∧
        ∀ tile, ((stepsOf id labels.flatten).flatMap events).count (.handedOut tile) ≤ maxTileRetries + 2 := by
  refine ⟨fun id => ⟨fun hid => ?_, fun ⟨args, hadded⟩ => (job_run hrun hadded).1⟩,
    fun id args args' => added_unique (family_run hrun), fun id args hadded => ?_⟩
  · exact exists_added (family_run hrun) (if_pos hid : s.family id = some (s.job id))
  · obtain ⟨-, start, hcreate, hjob⟩ := job_run hrun hadded
    refine ⟨start, hcreate, hjob, fun tile => ?_⟩
    obtain ⟨acts, -, hevents, hacts⟩ := queueInv_job hcreate hjob
    rw [← hevents]
    exact Scheduler.handed_le (create_start hcreate).1 hacts tile

end

theorem jobs_run_oneTile : ∃ labels s, Server.Run (K := ℚ) labels s ∧ ∃ args start,
    Job.Run (fun _ _ => True) start (stepsOf 0 labels.flatten) (s.job 0) ∧
      ((stepsOf 0 labels.flatten).flatMap events).count (.handedOut 0) ≤ maxTileRetries + 2 ∧
        .added 0 args ∈ labels.flatten := by
  obtain ⟨labels, s, -, -, -, -, -, hrun, -, hlist, -⟩ := oneTile_served
  obtain ⟨hcreated, -, hjobs⟩ := jobs_run hrun
  obtain ⟨args, hadded⟩ := (hcreated 0).mp (s.jobs.known 0 (hlist ▸ List.mem_singleton_self 0))
  obtain ⟨start, -, hjob, hhanded⟩ := hjobs 0 args hadded
  exact ⟨labels, s, hrun, args, start, hjob, hhanded 0, hadded⟩

end Scamp
