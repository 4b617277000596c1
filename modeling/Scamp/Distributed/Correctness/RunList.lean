import Scamp.Distributed.Correctness.Finished

/-!
# `Distributed.Correctness.RunList` — the run list of the server

`cleanup_jobs` takes a job off the run list when it does not run, in a step of its own after it has checked
the tiles of the job, and other threads call the job in between. No job that runs is lost that way
(`running_listed`). `get_job_to_work_on` asks the jobs of the list in turn, one call at a time: while a job
waits to be asked, each other job in front of it is asked at most once (`asked_within`).
-/

namespace Scamp

open Lib
open SCAMPProto (JobStatus)

/-! ## Two jobs -/

/-- Two clients ask for a job each, and a worker for work. -/
theorem twoJobs_served : ∃ labels s labels' s', Server.Run (K := ℚ) labels s ∧ 1 < s.jobs.count ∧
    (s.job 1).status = .running ∧ Trace Server.Step s labels' s' ∧ (s'.job 1).status = .running ∧
    labels'.flatten = [.moved 0 (.hasWork oneTileMoment.order oneTileMoment.now, .answer true)] := by
  have hfirst := Trace.nil.snoc (step_arrives (s := Server.start) 0 (.issueNewJob oneTileArgs) rfl)
  have hsecond := (hfirst.snoc (step_oneTile (n := 0) rfl rfl orders_added)).snoc
    (step_arrives 1 (.issueNewJob oneTileArgs) rfl)
  have hrequested := (hsecond.snoc (step_oneTile (n := 1) rfl rfl orders_added)).snoc
    (step_arrives 2 (.requestSCAMPWork 1) rfl)
  exact ⟨_, _, _, _, hrequested.snoc (step_oneTile (n := 2) rfl rfl orders_none), by decide, rfl,
    .single (step_oneTile (n := 2) rfl rfl (by exact orders_one (.refl _))), rfl, rfl⟩

section
variable {K : Type} [Field K] [LinearOrder K]
variable {s s' : Server K} {h h' : Handler K} {events : List (JobEvent K)} {jobs : JobList (Job K)}
variable {labels : List (List (JobEvent K))}

/-! ## No running job is lost -/

/-- **What a step does to the run list**: nothing, or a new job comes to its end, or its first job goes to
    the end after it was asked, or a job that does not run leaves it. -/
theorem step_runList (hstep : Server.Step s events s') :
    (s'.jobs.runList = s.jobs.runList ∧ (∀ id order now reply, .moved id (.hasWork order now, reply) ∉ events) ∧
        ∀ id args, .added id args ∉ events) ∨
      (s'.jobs.runList = s.jobs.runList ++ [s.jobs.count] ∧ ∃ args, events = [.added s.jobs.count args]) ∨
      (∃ id rest order now reply, s.jobs.runList = id :: rest ∧ s'.jobs.runList = rest ++ [id] ∧
        events = [.moved id (.hasWork order now, reply)]) ∨
      (∃ iter id, s.jobs.runList[iter]? = some id ∧ (s.job id).status ≠ .running ∧
        s'.jobs.runList = s.jobs.runList.eraseIdx iter ∧ events = []) := by
  cases hstep with
  | arrives => exact Or.inl ⟨rfl, fun _ _ _ _ => List.not_mem_nil, fun _ _ => List.not_mem_nil⟩
  | @handles n h m s' events hn hnext _ =>
      obtain ⟨h', -, hgoes, -⟩ := next_spec hnext
      generalize s'.jobs = jobs at hgoes ⊢
      have hrotate : ∀ job rest, s.jobs.runList = job :: rest → s.jobs.runList.rotate 1 = rest ++ [job] := by
        intro job rest hlist
        rw [hlist, List.rotate_cons_succ, List.rotate_zero]
      cases hgoes with
      | created => exact Or.inr (Or.inl ⟨rfl, _, rfl⟩)
      | chosen hlist _ _ => exact Or.inr (Or.inr (Or.inl ⟨_, _, _, _, _, hlist, hrotate _ _ hlist, rfl⟩))
      | passed hlist _ _ => exact Or.inr (Or.inr (Or.inl ⟨_, _, _, _, _, hlist, hrotate _ _ hlist, rfl⟩))
      | erased hjob hstatus => exact Or.inr (Or.inr (Or.inr ⟨_, _, hjob, hstatus, rfl, rfl⟩))
      | _ => exact Or.inl ⟨rfl, by simp, by simp⟩

/-- Every job that runs is on the run list. -/
def Server.Listed (s : Server K) : Prop :=
  ∀ id < s.jobs.count, (s.job id).status = .running → id ∈ s.jobs.runList

theorem mem_eraseIdx_of_ne {l : List ℕ} {iter a b : ℕ} (hget : l[iter]? = some b) (hne : a ≠ b) (hmem : a ∈ l) :
    a ∈ l.eraseIdx iter := by
  obtain ⟨i, hi⟩ := List.getElem?_of_mem hmem
  refine List.mem_eraseIdx_iff_getElem?.mpr ⟨i, ?_, hi⟩
  rintro rfl
  exact hne (Option.some.inj (hi.symm.trans hget))

/-- **Every step keeps the running jobs on the list.** -/
theorem listed_step (hs : s.Listed) (hstep : Server.Step s events s') : s'.Listed := by
  intro id hid hrunning
  by_cases hold : id < s.jobs.count
  · have hbefore : (s.job id).status = .running := by
      rcases step_job hstep hold with heq | ⟨call, reply, -, hcall⟩
      · rwa [heq] at hrunning
      · exact running_before hcall hrunning
    have hmem := hs id hold hbefore
    rcases step_runList hstep with ⟨hlist, -⟩ | ⟨hlist, -⟩ | ⟨job, rest, _, _, _, hfront, hlist, -⟩ |
        ⟨iter, job, hget, hstatus, hlist, -⟩
    · rwa [hlist]
    · rw [hlist]
      exact List.mem_append_left _ hmem
    · rw [hfront, List.mem_cons] at hmem
      rw [hlist, List.mem_append, List.mem_singleton]
      exact hmem.symm
    · -- the job that leaves is another one
      rw [hlist]
      refine mem_eraseIdx_of_ne hget ?_ hmem
      rintro rfl
      exact hstatus hbefore
  · obtain ⟨args, hevents, rfl, -⟩ := new_job hstep (not_lt.mp hold) hid
    rcases step_runList hstep with ⟨-, -, hnone⟩ | ⟨hlist, -⟩ | ⟨_, _, _, _, _, -, -, hother⟩ | ⟨_, _, -, -, -, hother⟩
    · exact absurd (hevents ▸ List.mem_singleton_self _) (hnone _ args)
    · rw [hlist]
      exact List.mem_append_right _ (List.mem_singleton_self _)
    · rw [hevents] at hother
      cases hother
    · rw [hevents] at hother
      cases hother

/-- **The run list.** In every state of the server, whatever requests arrive and however its threads
    interleave: the run list holds no job twice and only jobs that exist, and every job that runs is on it. -/
theorem running_listed (hrun : Server.Run labels s) :
    s.jobs.runList.Nodup ∧ (∀ id ∈ s.jobs.runList, id < s.jobs.count) ∧
      ∀ id < s.jobs.count, (s.job id).status = .running → id ∈ s.jobs.runList := by
  refine ⟨s.jobs.nodup, s.jobs.known, ?_⟩
  refine hrun.inv (I := fun _ s => s.Listed) (fun id hid => absurd hid (Nat.not_lt_zero id)) ?_
  exact fun _ _ _ _ _ hs hstep => listed_step hs hstep

theorem running_listed_two : ∃ labels s, Server.Run (K := ℚ) labels s ∧ (s.job 1).status = .running ∧
    1 ∈ s.jobs.runList := by
  obtain ⟨labels, s, -, -, hrun, hcount, hrunning, -⟩ := twoJobs_served
  exact ⟨labels, s, hrun, hrunning, (running_listed hrun).2.2 1 hcount hrunning⟩

/-! ## Waiting for a turn -/

/-- The jobs that were asked for work, in this order. -/
def asked (hs : List (JobEvent K)) : List ℕ :=
  hs.filterMap fun e =>
    match e with
    | .moved id (.hasWork _ _, _) => some id
    | _ => none

/-- The jobs in front of job `id`. -/
def inFront (id : ℕ) (runList : List ℕ) : List ℕ := runList.takeWhile (· ≠ id)

omit [Field K] [LinearOrder K] in
@[simp] theorem asked_append (hs hs' : List (JobEvent K)) : asked (hs ++ hs') = asked hs ++ asked hs' := by
  simp [asked]

omit [Field K] [LinearOrder K] in
theorem asked_of_none (hnone : ∀ id order now reply, .moved id (.hasWork order now, reply) ∉ events) :
    asked events = [] := by
  refine List.filterMap_eq_nil_iff.mpr fun e he => ?_
  split
  · exact absurd he (hnone _ _ _ _)
  · rfl

theorem inFront_cons {id job : ℕ} (hne : job ≠ id) (rest : List ℕ) :
    inFront id (job :: rest) = job :: inFront id rest := by
  simp [inFront, hne]

theorem inFront_append {id : ℕ} {l : List ℕ} (hmem : id ∈ l) (l' : List ℕ) :
    inFront id (l ++ l') = inFront id l := by
  induction l with
  | nil => cases hmem
  | cons job rest ih =>
      by_cases hne : job = id
      · simp [inFront, hne]
      · have hrest := ih ((List.mem_cons.mp hmem).resolve_left fun h => hne h.symm)
        rw [List.cons_append, inFront_cons hne, inFront_cons hne, hrest]

/-- When another job leaves the list, the jobs in front stay. -/
theorem inFront_eraseIdx {id job : ℕ} {l : List ℕ} {iter : ℕ} (hget : l[iter]? = some job) (hne : job ≠ id) :
    (inFront id (l.eraseIdx iter)).Sublist (inFront id l) := by
  induction l generalizing iter with
  | nil => cases hget
  | cons first rest ih =>
      cases iter with
      | zero =>
          obtain rfl := Option.some.inj hget
          rw [inFront_cons hne]
          exact List.sublist_cons_self _ _
      | succ iter =>
          rw [List.eraseIdx_cons_succ]
          by_cases hfirst : first = id
          · simp [inFront, hfirst]
          · rw [inFront_cons hfirst, inFront_cons hfirst]
            exact (ih hget).cons_cons first

/-- **Waiting is bounded.** Whatever the threads of the server do while a job that runs waits to be asked for
    work, only jobs in front of it in the run list are asked, in their order, and each of them once. -/
theorem asked_within (hrun : Server.Run labels s) {id : ℕ} (hid : id < s.jobs.count)
    {labels' : List (List (JobEvent K))} (hrun' : Trace Server.Step s labels' s')
    (hrunning : (s'.job id).status = .running) (hwaits : id ∉ asked labels'.flatten) :
    (asked labels'.flatten).Sublist (inFront id s.jobs.runList) ∧
      (asked labels'.flatten).length + (inFront id s'.jobs.runList).length ≤ (inFront id s.jobs.runList).length := by
  have hsub : (asked labels'.flatten ++ inFront id s'.jobs.runList).Sublist (inFront id s.jobs.runList) := by
    induction hrun' with
    | nil => exact List.Sublist.refl _
    | @snoc labels' t events t' hbefore hstep ih =>
        have ht : id < t.jobs.count := by
          refine hbefore.inv (I := fun _ t => id < t.jobs.count) hid ?_
          exact fun _ _ _ _ _ hlt hstep => hlt.trans_le (step_count_le hstep)
        have hstatus : (t.job id).status = .running := by
          rcases step_job hstep ht with heq | ⟨call, reply, -, hcall⟩
          · rwa [heq] at hrunning
          · exact running_before hcall hrunning
        have hmem := (running_listed (hrun.append hbefore)).2.2 id ht hstatus
        rw [List.flatten_append, List.flatten_singleton, asked_append] at hwaits ⊢
        rw [List.mem_append, not_or] at hwaits
        have hbefore := ih hstatus hwaits.1
        rcases step_runList hstep with ⟨hlist, hnone, -⟩ | ⟨hlist, args, rfl⟩ | ⟨job, rest, _, _, _, hfront, hlist, rfl⟩ |
            ⟨iter, job, hget, hout, hlist, rfl⟩
        · rw [asked_of_none hnone, List.append_nil, hlist]
          exact hbefore
        · rw [hlist, inFront_append hmem, show asked [.added t.jobs.count args] = [] from rfl, List.append_nil]
          exact hbefore
        · -- the job that is asked goes from the front to the end
          have hne : job ≠ id := by
            rintro rfl
            exact hwaits.2 (List.mem_singleton_self job)
          have hrest : id ∈ rest := (List.mem_cons.mp (hfront ▸ hmem)).resolve_left fun h => hne h.symm
          rw [hfront, inFront_cons hne] at hbefore
          rw [hlist, inFront_append hrest]
          simpa [asked] using hbefore
        · have hne : job ≠ id := by
            rintro rfl
            exact hout hstatus
          rw [hlist, show asked ([] : List (JobEvent K)) = [] from rfl, List.append_nil]
          exact ((List.Sublist.refl _).append (inFront_eraseIdx hget hne)).trans hbefore
  have hlength := hsub.length_le
  rw [List.length_append] at hlength
  exact ⟨(List.sublist_append_left _ _).trans hsub, hlength⟩

theorem asked_within_two : ∃ labels s labels' s', Server.Run (K := ℚ) labels s ∧ Trace Server.Step s labels' s' ∧
    (s'.job 1).status = .running ∧ 1 ∉ asked labels'.flatten ∧
    (asked labels'.flatten).Sublist (inFront 1 s.jobs.runList) := by
  obtain ⟨labels, s, labels', s', hrun, hcount, -, hrun', hrunning, hevents⟩ := twoJobs_served
  have hwaits : 1 ∉ asked labels'.flatten := by
    rw [hevents]
    decide
  exact ⟨labels, s, labels', s', hrun, hrun', hrunning, hwaits, (asked_within hrun hcount hrun' hrunning hwaits).1⟩

end

end Scamp
