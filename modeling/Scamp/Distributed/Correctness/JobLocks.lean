import Scamp.Distributed.Correctness.ServerRun
import Scamp.Distributed.JobLocks

/-!
# `Distributed.Correctness.JobLocks` — the locks of the server

The server does the same with the locks of its jobs as without: every run of `Distributed.JobLocks` is a run
of `Distributed.Server` with the same histories of the jobs, in which the steps before a method is left are
dropped (`LockedServer.Run.server`), and every run there is one here (`Server.Run.locked`). So what is proved
of the runs without the locks holds of those with them.

The thread that holds the lock of the list waits for the lock of a job while another thread is inside a method
of that job. It waits for nobody else, and that thread waits for nobody, so the lock of the list is given back
(`list_lock_released`).
-/

namespace Scamp

open Lib

section
variable {K : Type} [Field K] [LinearOrder K]
variable {s s' : Server K} {h h' : Handler K} {events : List (JobEvent K)} {jobs : JobList (Job K)}
variable {labels : List (List (JobEvent K))}

/-! ## The same runs -/

/-- A step with the locks is one without, or none at all. -/
theorem LockedServer.Step.server {s s' : LockedServer K} (hstep : LockedServer.Step s events s') :
    Server.Step s.server events s'.server ∨ (events = [] ∧ s'.server = s.server) := by
  cases hstep with
  | arrives hnone => exact Or.inl (.arrives hnone)
  | runs hn _ _ hnext horders => exact Or.inl (.handles hn hnext horders)
  | enters => exact Or.inr ⟨rfl, rfl⟩
  | leaves hn _ hnext horders => exact Or.inl (.handles hn hnext horders)
  | looks => exact Or.inr ⟨rfl, rfl⟩
  | looked => exact Or.inr ⟨rfl, rfl⟩

/-- **Without the locks.** What a run does to the jobs, a run of the server without the locks of the jobs does
    too. -/
theorem LockedServer.Run.server {s : LockedServer K} (hrun : LockedServer.Run labels s) :
    ∃ labels', Server.Run labels' s.server ∧ labels'.flatten = labels.flatten := by
  have hmatch : ∀ s (a : List (JobEvent K)) s', True → LockedServer.Step s a s' →
      ∃ labels', Trace Server.Step s.server labels' s'.server ∧ labels'.flatMap id = a := by
    intro s a s' _ hstep
    rcases hstep.server with hstep | ⟨rfl, hsame⟩
    · exact ⟨[a], .single hstep, by simp⟩
    · exact ⟨[], hsame ▸ .nil, rfl⟩
  obtain ⟨-, labels', hrun', hlabels⟩ := hrun.refine LockedServer.server id id (fun _ => True) trivial
    (fun _ _ _ _ _ => trivial) hmatch
  exact ⟨labels', hrun', by simpa only [List.flatMap_id] using hlabels⟩

/-- A step of a thread that is alone: it takes the lock of the job it calls and gives it back. -/
theorem Server.Step.locked (hstep : Server.Step s events s') :
    ∃ labels', Trace LockedServer.Step (.ofServer s) labels' (.ofServer s') ∧ labels'.flatten = events := by
  cases hstep with
  | arrives hnone => exact ⟨[[]], .single (.arrives hnone), rfl⟩
  | @handles n h m s' events hn hnext horders =>
      cases hcalls : h.calls s with
      | none => exact ⟨[events], .single (.runs hn hcalls nofun hnext horders), by simp⟩
      | some job =>
          have hentered := Trace.single (LockedServer.Step.enters (s := .ofServer s) hn hcalls nofun rfl)
          have hleft := hentered.snoc (.leaves (s := (LockedServer.ofServer s).lock job n .step) hn
            (Function.update_self ..) hnext horders)
          refine ⟨[[], events], ?_, by simp⟩
          have hfree : Function.update (Function.update (fun _ => none) job (some (n, .step))) job none =
              fun _ => (none : Option (ℕ × Method)) := by
            rw [Function.update_idem, Function.update_eq_self_iff]
          rwa [LockedServer.unlock, LockedServer.lock, LockedServer.ofServer, hfree] at hleft

/-- **With the locks.** What a run of the server without the locks of the jobs does, a run with them does
    too. -/
theorem Server.Run.locked (hrun : Server.Run labels s) :
    ∃ labels', LockedServer.Run labels' (.ofServer s) ∧ labels'.flatten = labels.flatten := by
  have hmatch : ∀ s (a : List (JobEvent K)) s', True → Server.Step s a s' →
      ∃ labels', Trace LockedServer.Step (.ofServer s) labels' (.ofServer s') ∧ labels'.flatMap id = a := by
    intro s a s' _ hstep
    obtain ⟨labels', hrun', hlabels⟩ := hstep.locked
    exact ⟨labels', hrun', by simpa only [List.flatMap_id] using hlabels⟩
  obtain ⟨-, labels', hrun', hlabels⟩ := hrun.refine LockedServer.ofServer id id (fun _ => True) trivial
    (fun _ _ _ _ _ => trivial) hmatch
  exact ⟨labels', hrun', by simpa only [List.flatMap_id] using hlabels⟩

/-! ## Inside the methods of the job list -/

/-- Other threads leave the run list alone while thread `n` holds its lock. -/
theorem runList_kept (hs : ServerInv s) {n k : ℕ} (hn : s.mutex = some n) (hk : s.handler k = some h) (hne : k ≠ n)
    (hgoes : Goes s h events jobs h') : jobs.runList = s.jobs.runList := by
  have hpass : h.inPass ≠ true := fun hp => hne (Option.some.inj (((hs.mutex k h hk).mp hp).symm.trans hn))
  have ht := hgoes.touches
  cases ht with
  | nothing => rfl
  | created hfree _ _ =>
      rw [hn] at hfree
      cases hfree
  | called _ _ => rfl
  | asked hp _ _ => exact absurd hp hpass
  | dropped hp _ _ => exact absurd hp hpass

/-- The place in the run list of a thread that looks at the status of a job. -/
def Handler.InList (s : Server K) : Handler K → Prop
  | .checkingStatus iter => iter < s.jobs.runList.length
  | _ => True

/-- What holds of the threads that hold the lock of the list. -/
structure PassInv (s : Server K) : Prop where
  threads : ServerInv s
  inList : ∀ n h, s.handler n = some h → h.InList s

/-- A thread looks at a status once. -/
theorem Goes.leaves {iter : ℕ} (hgoes : Goes s (.checkingStatus iter) events jobs h') : h' ≠ .checkingStatus iter := by
  cases hgoes with
  | unknown _ hfinds _ => cases hfinds
  | found _ hfinds _ => cases hfinds
  | erased _ _ => exact nofun
  | kept _ _ => exact nofun

/-- A place in the list stays one while another thread takes a step. -/
theorem Handler.InList.mono (hs : ServerInv s) (hstep : Server.Step s events s') {n : ℕ}
    (hn : s.handler n = some h) (hn' : s'.handler n = some h) (hin : h.InList s) : h.InList s' := by
  unfold Handler.InList at hin ⊢
  split
  · next iter =>
      have hmutex : s.mutex = some n := (hs.mutex n _ hn).mp rfl
      cases hstep with
      | arrives => exact hin
      | @handles k g m s' events hk hnext _ =>
          obtain ⟨g', hhandler, hgoes, -⟩ := next_spec hnext
          by_cases hne : k = n
          · -- the thread itself would have moved on
            subst hne
            obtain rfl := Option.some.inj (hn.symm.trans hk)
            rw [hhandler, Function.update_self] at hn'
            obtain rfl := Option.some.inj hn'
            exact absurd rfl hgoes.leaves
          · rw [runList_kept hs hmutex hk hne hgoes]
            exact hin
  · trivial

/-- A thread that begins to look at a status looks at a job of the list. -/
theorem Goes.inList (hgoes : Goes s h events s'.jobs h') : h'.InList s' := by
  generalize hjobs : s'.jobs = jobs at hgoes
  cases hgoes with
  | @found _ _ _ job _ hfinds _ =>
      have hpass := ((inPass_of_finds hfinds).2 job).1
      unfold Handler.InList
      split
      · next heq =>
          rw [heq] at hpass
          cases hpass
      · trivial
  | timed hget =>
      show _ < s'.jobs.runList.length
      rw [hjobs]
      exact (List.getElem?_eq_some_iff.mp hget).1
  | _ => exact trivial

theorem passInv_step (hs : PassInv s) (hstep : Server.Step s events s') : PassInv s' where
  threads := serverInv_step hs.threads hstep
  inList := threads_step (P := fun _ h => h.InList s) (Q := fun _ h => h.InList s') hstep hs.inList
    (fun _ _ _ => trivial) (fun _ _ hn hn' hin => hin.mono hs.threads hstep hn hn')
    fun _ _ _ _ _ hgoes => hgoes.inList

omit [LinearOrder K] in
theorem passInv_start : PassInv (Server.start : Server K) := ⟨serverInv_start, fun _ _ h => nomatch h⟩

/-- A bound on the steps until a thread gives the lock of the list back. -/
def Handler.left (s : Server K) : Handler K → ℕ
  | .asking _ i => s.jobs.runList.length - i + 1
  | .checkingTime iter => 2 * (s.jobs.runList.length - iter) + 1
  | .checkingStatus iter => 2 * (s.jobs.runList.length - iter)
  | _ => 0

/-- **Each step inside a pass** brings the thread nearer to its end. -/
theorem Goes.left_lt (hgoes : Goes s h events s'.jobs h') (hpass : h.inPass = true) (hpass' : h'.inPass = true) :
    h'.left s' < h.left s := by
  unfold Handler.left
  generalize s'.jobs = jobs at hgoes
  cases hgoes with
  | @passed throughput i job rest order now hlist hi _ =>
      show (s.jobs.runList.rotate 1).length - (i + 1) + 1 < s.jobs.runList.length - i + 1
      rw [List.length_rotate]
      omega
  | @timed iter job now hget =>
      have hlt := (List.getElem?_eq_some_iff.mp hget).1
      show 2 * (s.jobs.runList.length - iter) < 2 * (s.jobs.runList.length - iter) + 1
      omega
  | @erased iter job hget _ =>
      have hlt := (List.getElem?_eq_some_iff.mp hget).1
      show 2 * ((s.jobs.runList.eraseIdx iter).length - iter) + 1 < 2 * (s.jobs.runList.length - iter)
      rw [List.length_eraseIdx_of_lt hlt]
      omega
  | @kept iter job hget _ =>
      have hlt := (List.getElem?_eq_some_iff.mp hget).1
      show 2 * (s.jobs.runList.length - (iter + 1)) + 1 < 2 * (s.jobs.runList.length - iter)
      omega
  | found _ hfinds _ =>
      rw [(inPass_of_finds hfinds).1] at hpass
      cases hpass
  | _ => first | (cases hpass; done) | cases hpass'

/-- **A thread inside a pass is never blocked.** -/
theorem pass_ready (n : ℕ) (hpass : h.inPass = true) (hin : h.InList s) :
    ∃ m s' events, h.next m n s = some (s', events) ∧
      ∀ id call, .moved id call ∈ events → call.1.Orders (s.job id) := by
  cases h with
  | asking throughput i =>
      cases hlist : s.jobs.runList with
      | nil =>
          refine ⟨⟨0, fun _ => 0, []⟩, ?_⟩
          simp only [Handler.next, hlist]
          exact ⟨_, _, rfl, orders_none⟩
      | cons job rest =>
          refine ⟨⟨0, fun _ => 0, List.range (s.job job).tileCounter⟩, ?_⟩
          simp only [Handler.next, hlist]
          split
          · split
            · exact ⟨_, _, rfl, orders_one (List.Perm.refl _)⟩
            · exact ⟨_, _, rfl, orders_one (List.Perm.refl _)⟩
          · exact ⟨_, _, rfl, orders_none⟩
  | checkingTime iter =>
      refine ⟨⟨0, fun _ => 0, []⟩, ?_⟩
      simp only [Handler.next]
      split
      · exact ⟨_, _, rfl, orders_none⟩
      · exact ⟨_, _, rfl, orders_one trivial⟩
  | checkingStatus iter =>
      refine ⟨⟨0, fun _ => 0, []⟩, ?_⟩
      simp only [Handler.next, List.getElem?_eq_getElem (hin : iter < s.jobs.runList.length)]
      split
      · exact ⟨_, _, rfl, orders_none⟩
      · exact ⟨_, _, rfl, orders_none⟩
  | _ => cases hpass

/-! ## Inside the methods of the jobs -/

/-- A step of a thread calls the job that it calls next. -/
theorem Goes.calls (hgoes : Goes s h events jobs h') {id : ℕ} {call : Call K × Reply K}
    (hmoved : .moved id call ∈ events) : h.calls s = some id := by
  have hone : ∀ {job : ℕ} {call' : Call K × Reply K}, (.moved id call : JobEvent K) ∈
      [(.moved job call' : JobEvent K)] → some job = some id := fun hmem =>
    congrArg some (Happening.moved.inj (List.mem_singleton.mp hmem)).1.symm
  cases hgoes with
  | created => exact nomatch List.mem_singleton.mp hmoved
  | checked => exact hone hmoved
  | done => exact hone hmoved
  | notDone => exact hone hmoved
  | chosen hlist hi _ =>
      rw [Handler.calls, if_pos hi, hlist]
      exact hone hmoved
  | passed hlist hi _ =>
      rw [Handler.calls, if_pos hi, hlist]
      exact hone hmoved
  | fetched => exact hone hmoved
  | combined => exact hone hmoved
  | failed => exact hone hmoved
  | timed hget => exact hget.trans (hone hmoved)
  | _ => exact absurd hmoved List.not_mem_nil

/-- A thread leaves the jobs alone that it does not call. -/
theorem Goes.job_kept (hgoes : Goes s h events s'.jobs h') {id : ℕ} (hid : id < s.jobs.count)
    (hcalls : h.calls s ≠ some id) : s'.job id = s.job id := by
  rcases hgoes.touches.job_cases hid with hsame | ⟨call, reply, rfl, -⟩
  · exact hsame
  · exact absurd (hgoes.calls (List.mem_singleton_self _)) hcalls

omit [Field K] [LinearOrder K] in
/-- A thread with a pointer calls no other job. -/
theorem Handler.calls_of_pointsTo {job job' : ℕ} (hp : h.pointsTo = some job) (hc : h.calls s = some job') :
    job = job' := by
  cases h with
  | reporting => exact Option.some.inj (hp.symm.trans hc)
  | checkingDone => exact Option.some.inj (hp.symm.trans hc)
  | fetchingDone => exact Option.some.inj (hp.symm.trans hc)
  | fetching => exact Option.some.inj (hp.symm.trans hc)
  | combining => exact Option.some.inj (hp.symm.trans hc)
  | failing => exact Option.some.inj (hp.symm.trans hc)
  | copying => cases hc
  | _ => cases hp

omit [Field K] [LinearOrder K] in
/-- What a thread calls is known from the run list. -/
theorem Handler.calls_congr (hlist : h.inPass = true → s'.jobs.runList = s.jobs.runList) :
    h.calls s' = h.calls s := by
  cases h with
  | asking => simp only [Handler.calls, hlist rfl]
  | checkingTime => simp only [Handler.calls, hlist rfl]
  | checkingStatus => simp only [Handler.calls, hlist rfl]
  | _ => rfl

omit [Field K] [LinearOrder K] in
theorem Handler.pointsTo_of_inPass (hpass : h.inPass = true) : h.pointsTo = none := by
  cases h with
  | asking => rfl
  | checkingTime => rfl
  | checkingStatus => rfl
  | _ => cases hpass

omit [Field K] [LinearOrder K] in
/-- Who holds the locks after one was taken. -/
theorem LockedServer.lock_cases {s : LockedServer K} {entered n job k : ℕ} {method method' : Method}
    (h : (s.lock entered n method').jobMutex job = some (k, method)) :
    (job = entered ∧ k = n ∧ method = method') ∨ (job ≠ entered ∧ s.jobMutex job = some (k, method)) := by
  by_cases hjob : job = entered
  · subst hjob
    have hsome : (s.lock job n method').jobMutex job = some (n, method') := Function.update_self ..
    obtain ⟨rfl, rfl⟩ := Prod.mk.inj (Option.some.inj (h.symm.trans hsome))
    exact Or.inl ⟨rfl, rfl, rfl⟩
  · exact Or.inr ⟨hjob, (Function.update_of_ne hjob ..).symm.trans h⟩

omit [Field K] [LinearOrder K] in
/-- Who holds the locks after one was given back. -/
theorem LockedServer.unlock_cases {s : LockedServer K} {left job k : ℕ} {method : Method}
    (h : (s.unlock left).jobMutex job = some (k, method)) :
    job ≠ left ∧ s.jobMutex job = some (k, method) := by
  have hjob : job ≠ left := by
    rintro rfl
    have hnone : (s.unlock job).jobMutex job = none := Function.update_self ..
    exact nomatch hnone.symm.trans h
  exact ⟨hjob, (Function.update_of_ne hjob ..).symm.trans h⟩

/-- Where a thread is that is inside a method of the job. -/
def Method.At (s : Server K) (h : Handler K) (job : ℕ) : Method → Prop
  | .step => h.calls s = some job
  | .getter => h.pointsTo = some job

/-- The locks of the jobs are held by threads inside their methods. -/
def LocksInv (s : LockedServer K) : Prop :=
  ∀ job n method, s.jobMutex job = some (n, method) →
    ∃ h, s.server.handler n = some h ∧ method.At s.server h job

omit [Field K] [LinearOrder K] in
theorem locksInv_ofServer (s : Server K) : LocksInv (.ofServer s) := by
  intro job n method hnone
  cases hnone

omit [Field K] [LinearOrder K] in
/-- A thread is inside one method at most. -/
theorem LocksInv.job_unique {s : LockedServer K} (hs : LocksInv s) {n job job' : ℕ} {method : Method}
    (hjob : s.jobMutex job = some (n, .step)) (hjob' : s.jobMutex job' = some (n, method)) : job' = job := by
  obtain ⟨h, hn, hcalls⟩ := hs job n .step hjob
  obtain ⟨h', hn', hat⟩ := hs job' n method hjob'
  obtain rfl := Option.some.inj (hn.symm.trans hn')
  cases method with
  | step => exact Option.some.inj (hat.symm.trans hcalls)
  | getter => exact Handler.calls_of_pointsTo hat hcalls

/-- A thread stays inside its method while another one takes a step. -/
theorem LocksInv.others {s : LockedServer K} {server : Server K} (hs : LocksInv s) (hthreads : ServerInv s.server)
    {n : ℕ} (hn : s.server.handler n = some h) (hhandler : server.handler = Function.update s.server.handler n (some h'))
    (hgoes : Goes s.server h events server.jobs h') {k job : ℕ} {method : Method}
    (hk : s.jobMutex job = some (k, method)) (hne : k ≠ n) :
    ∃ g, server.handler k = some g ∧ method.At server g job := by
  obtain ⟨g, hg, hat⟩ := hs job k method hk
  refine ⟨g, by rw [hhandler, Function.update_of_ne hne, hg], ?_⟩
  cases method with
  | step =>
      refine (Handler.calls_congr fun hpass => ?_).trans hat
      exact runList_kept hthreads ((hthreads.mutex k g hg).mp hpass) hn (fun h => hne h.symm) hgoes
  | getter => exact hat

/-- **Every step keeps the threads inside the methods.** -/
theorem locksInv_step {s s' : LockedServer K} (hs : LocksInv s) (hthreads : ServerInv s.server)
    (hstep : LockedServer.Step s events s') : LocksInv s' := by
  intro job k method hk
  cases hstep with
  | @arrives n request hnone =>
      obtain ⟨g, hg, hat⟩ := hs job k method hk
      have hne : k ≠ n := by
        rintro rfl
        rw [hnone] at hg
        cases hg
      refine ⟨g, (Function.update_of_ne hne ..).trans hg, ?_⟩
      cases method with
      | step => exact (Handler.calls_congr fun _ => rfl).trans hat
      | getter => exact hat
  | @runs n h m server events hn _ hout hnext _ =>
      obtain ⟨h', hhandler, hgoes, -⟩ := next_spec hnext
      refine hs.others hthreads hn hhandler hgoes hk ?_
      rintro rfl
      exact hout job method hk
  | @leaves n left h m server events hn hleft hnext _ =>
      obtain ⟨h', hhandler, hgoes, -⟩ := next_spec hnext
      obtain ⟨hjob, hk⟩ := LockedServer.unlock_cases hk
      refine hs.others hthreads hn hhandler hgoes hk ?_
      rintro rfl
      exact hjob (hs.job_unique hleft hk)
  | @enters n entered h hn hcalls _ _ =>
      rcases LockedServer.lock_cases hk with ⟨rfl, rfl, rfl⟩ | ⟨-, hk⟩
      · exact ⟨h, hn, hcalls⟩
      · exact hs job k method hk
  | @looks n entered h hn hp _ _ =>
      rcases LockedServer.lock_cases hk with ⟨rfl, rfl, rfl⟩ | ⟨-, hk⟩
      · exact ⟨h, hn, hp⟩
      · exact hs job k method hk
  | looked _ => exact hs job k method (LockedServer.unlock_cases hk).2

/-! ## Waiting for a job -/

/-- The method that the thread calls next returns, whatever the clock and the order of the tiles. -/
def Handler.Returns (s : Server K) : Handler K → Prop
  | .fetching throughput job =>
      ∀ order now, order.Perm (List.range (s.job job).tileCounter) →
        ((s.job job).fetchReadyTile order now throughput).isSome
  | .combining request job => ∀ now, ((s.job job).combineProfile request now).isSome
  | _ => True

/-- The methods that threads are inside of return. -/
def LockedServer.Returning (s : LockedServer K) : Prop :=
  ∀ job n h, s.jobMutex job = some (n, .step) → s.server.handler n = some h → h.Returns s.server

/-- Whether a method returns is decided by its job. -/
theorem Handler.Returns.congr (hret : h.Returns s) (hjob : ∀ id, h.pointsTo = some id → s'.job id = s.job id) :
    h.Returns s' := by
  cases h with
  | fetching throughput job =>
      intro order now
      rw [hjob job rfl]
      exact hret order now
  | combining request job =>
      intro now
      rw [hjob job rfl]
      exact hret now
  | _ => trivial

/-- **A thread inside a method that returns waits for nobody.** -/
theorem call_ready (n : ℕ) {job : ℕ} (hcalls : h.calls s = some job) (hret : h.Returns s) (hin : h.InList s) :
    ∃ m s' events, h.next m n s = some (s', events) ∧
      ∀ id call, .moved id call ∈ events → call.1.Orders (s.job id) := by
  cases h with
  | reporting jobId job => exact ⟨⟨0, fun _ => 0, []⟩, _, _, rfl, orders_none⟩
  | checkingDone jobId job => exact ⟨⟨0, fun _ => 0, []⟩, _, _, rfl, orders_one trivial⟩
  | fetchingDone job => exact ⟨⟨0, fun _ => 0, []⟩, _, _, rfl, orders_one trivial⟩
  | fetching throughput job =>
      have horder := List.Perm.refl (List.range (s.job job).tileCounter)
      obtain ⟨r, hr⟩ := Option.isSome_iff_exists.mp (hret _ 0 horder)
      refine ⟨⟨0, fun _ => 0, _⟩, _, _, by rw [Handler.next, hr, Option.map_some], ?_⟩
      exact orders_one horder
  | combining request job =>
      obtain ⟨r, hr⟩ := Option.isSome_iff_exists.mp (hret 0)
      refine ⟨⟨0, fun _ => 0, []⟩, _, _, by rw [Handler.next, hr, Option.map_some], ?_⟩
      exact orders_one trivial
  | failing tileId job => exact ⟨⟨0, fun _ => 0, []⟩, _, _, rfl, orders_one trivial⟩
  | asking throughput i => exact pass_ready n rfl hin
  | checkingTime iter => exact pass_ready n rfl hin
  | checkingStatus iter => exact pass_ready n rfl hin
  | _ => cases hcalls

omit [Field K] [LinearOrder K] in
theorem Handler.left_congr (hlist : s'.jobs.runList = s.jobs.runList) (h : Handler K) : h.left s' = h.left s := by
  unfold Handler.left
  rw [hlist]

theorem Handler.returns_of_inPass (hpass : h.inPass = true) : h.Returns s := by
  cases h with
  | asking => trivial
  | checkingTime => trivial
  | checkingStatus => trivial
  | _ => cases hpass

/-! ## The lock of the list -/

/-- What holds of the threads of the server and of the locks of its jobs. -/
structure LockedInv (s : LockedServer K) : Prop where
  pass : PassInv s.server
  inside : LocksInv s

theorem lockedInv_step {s s' : LockedServer K} (hs : LockedInv s) (hstep : LockedServer.Step s events s') :
    LockedInv s' where
  pass := by
    rcases hstep.server with hstep | ⟨-, hsame⟩
    · exact passInv_step hs.pass hstep
    · exact hsame ▸ hs.pass
  inside := locksInv_step hs.inside hs.pass.threads hstep

theorem lockedInv_run {s : LockedServer K} (hrun : LockedServer.Run labels s) : LockedInv s :=
  hrun.inv (I := fun _ s => LockedInv s) ⟨passInv_start, locksInv_ofServer _⟩
    fun _ _ _ _ _ hs hstep => lockedInv_step hs hstep

/-- Thread `n` comes from `s` to `s'` in at most `k` steps, and the threads that are inside no method of a job
    stay where they are. -/
structure Advances (n : ℕ) (s : LockedServer K) (k : ℕ) (s' : LockedServer K) : Prop where
  run : ∃ labels, Trace LockedServer.Step s labels s' ∧ labels.length ≤ k
  stays : ∀ j, j ≠ n → s.Outside j → s'.server.handler j = s.server.handler j ∧ s'.Outside j
  inv : LockedInv s'
  returning : s'.Returning

section
variable {n k : ℕ} {s s' : LockedServer K} {h h' : Handler K}

theorem Advances.trans {k' : ℕ} {s'' : LockedServer K} (hs : Advances n s k s') (hs' : Advances n s' k' s'') :
    Advances n s (k + k') s'' where
  run := by
    obtain ⟨labels, hrun, hlen⟩ := hs.run
    obtain ⟨labels', hrun', hlen'⟩ := hs'.run
    exact ⟨labels ++ labels', hrun.append hrun', by rw [List.length_append]; omega⟩
  stays j hj hout := by
    obtain ⟨hsame, hout⟩ := hs.stays j hj hout
    obtain ⟨hsame', hout⟩ := hs'.stays j hj hout
    exact ⟨hsame'.trans hsame, hout⟩
  inv := hs'.inv
  returning := hs'.returning

theorem Advances.mono {k' : ℕ} (hs : Advances n s k s') (hle : k ≤ k') : Advances n s k' s' where
  run := hs.run.imp fun _ hrun => ⟨hrun.1, hrun.2.trans hle⟩
  stays := hs.stays
  inv := hs.inv
  returning := hs.returning

/-- After a step of a thread the methods that the others are inside of still return. -/
theorem LockedServer.Returning.others {server : Server K} {mutex : ℕ → Option (ℕ × Method)} (hs : LockedInv s)
    (hret : s.Returning) (hhandler : server.handler = Function.update s.server.handler k (some h'))
    (hgoes : Goes s.server h events server.jobs h')
    (hmutex : ∀ job j, mutex job = some (j, .step) →
      s.jobMutex job = some (j, .step) ∧ j ≠ k ∧ h.calls s.server ≠ some job) :
    (LockedServer.mk server mutex).Returning := by
  intro job j g hj hg
  obtain ⟨hold, hne, hcalls⟩ := hmutex job j hj
  have hgold : s.server.handler j = some g := by
    rw [← hg]
    exact (congrFun hhandler j).trans (Function.update_of_ne hne ..) |>.symm
  obtain ⟨g', hg', hat⟩ := hs.inside job j .step hold
  obtain rfl := Option.some.inj (hgold.symm.trans hg')
  refine (hret job j g hold hgold).congr fun id hid => ?_
  obtain rfl := Handler.calls_of_pointsTo hid hat
  exact hgoes.job_kept (hs.pass.threads.known j g id hgold hid) hcalls

/-- **A thread inside a method leaves it**, and waits for nobody. -/
theorem exists_leaves (hs : LockedInv s) (hret : s.Returning) {job : ℕ} {method : Method}
    (hk : s.jobMutex job = some (k, method)) : ∃ events s', LockedServer.Step s events s' ∧ s'.Returning ∧
      s'.jobMutex = Function.update s.jobMutex job none ∧
      (∀ j, j ≠ k → s'.server.handler j = s.server.handler j) ∧
      ∀ n, n ≠ k → s.server.mutex = some n → s'.server.jobs.runList = s.server.jobs.runList := by
  obtain ⟨g, hg, hat⟩ := hs.inside job k method hk
  cases method with
  | getter =>
      refine ⟨[], s.unlock job, .looked hk, fun id j g hj hg => ?_, rfl, fun _ _ => rfl, fun _ _ _ => rfl⟩
      exact hret id j g (LockedServer.unlock_cases hj).2 hg
  | step =>
      obtain ⟨m, server, events, hnext, horders⟩ := call_ready k hat (hret job k g hk hg) (hs.pass.inList k g hg)
      obtain ⟨g', hhandler, hgoes, -⟩ := next_spec hnext
      refine ⟨events, _, .leaves hg hk hnext horders, ?_, rfl, fun j hj => ?_, fun n hn hmutex => ?_⟩
      · refine hret.others hs hhandler hgoes fun id j hj => ?_
        obtain ⟨hid, hj⟩ := LockedServer.unlock_cases (s := s) hj
        refine ⟨hj, ?_, fun hcalls => hid (Option.some.inj (hcalls.symm.trans hat))⟩
        rintro rfl
        exact hid (hs.inside.job_unique hk hj)
      · exact (congrFun hhandler j).trans (Function.update_of_ne hj ..)
      · exact runList_kept hs.pass.threads hmutex hg hn.symm hgoes

omit [Field K] [LinearOrder K] in
/-- A thread inside a pass is inside no method when the job it calls is free. -/
theorem outside_of_inPass (hs : LockedInv s) (hn : s.server.handler n = some h) (hpass : h.inPass = true)
    (hfree : ∀ job, h.calls s.server = some job → s.jobMutex job = none) : s.Outside n := by
  intro job method hjob
  obtain ⟨g, hg, hat⟩ := hs.inside job n method hjob
  obtain rfl := Option.some.inj (hn.symm.trans hg)
  cases method with
  | step => exact nomatch (hfree job hat).symm.trans hjob
  | getter => exact nomatch (Handler.pointsTo_of_inPass hpass).symm.trans hat

/-- The thread that holds the lock of the list waits until the job it calls is free. -/
theorem pass_waits (hs : LockedInv s) (hret : s.Returning) (hn : s.server.handler n = some h)
    (hpass : h.inPass = true) {job : ℕ} {method : Method} (hk : s.jobMutex job = some (k, method)) (hne : k ≠ n) :
    ∃ s', Advances n s 1 s' ∧ s'.server.handler n = some h ∧ s'.jobMutex job = none ∧
      s'.server.jobs.runList = s.server.jobs.runList := by
  obtain ⟨events, s', hstep, hret', hmutex, hhandler, hlist⟩ := exists_leaves hs hret hk
  refine ⟨s', ⟨⟨[events], .single hstep, le_refl _⟩, fun j hj hout => ?_, lockedInv_step hs hstep, hret'⟩,
    (hhandler n hne.symm).trans hn, ?_, hlist n hne.symm ((hs.pass.threads.mutex n h hn).mp hpass)⟩
  · have hjk : j ≠ k := by
      rintro rfl
      exact hout job method hk
    refine ⟨hhandler j hjk, fun id m hid => ?_⟩
    rw [hmutex] at hid
    exact hout id m (LockedServer.unlock_cases (s := s) hid).2
  · rw [hmutex, Function.update_self]

/-- It enters the method when the job is free. -/
theorem pass_enters (hs : LockedInv s) (hret : s.Returning) (hn : s.server.handler n = some h)
    (hpass : h.inPass = true) {job : ℕ} (hcalls : h.calls s.server = some job) (hfree : s.jobMutex job = none) :
    Advances n s 1 (s.lock job n .step) := by
  have hout : s.Outside n := by
    refine outside_of_inPass hs hn hpass fun job' hcalls' => ?_
    obtain rfl := Option.some.inj (hcalls.symm.trans hcalls')
    exact hfree
  have hstep : LockedServer.Step s [] (s.lock job n .step) := .enters hn hcalls hout hfree
  refine ⟨⟨[[]], .single hstep, le_refl _⟩, fun j hj hout => ⟨rfl, fun id m hid => ?_⟩, lockedInv_step hs hstep,
    fun id j g hj hg => ?_⟩
  · rcases LockedServer.lock_cases hid with ⟨-, rfl, -⟩ | ⟨-, hid⟩
    · exact hj rfl
    · exact hout id m hid
  · rcases LockedServer.lock_cases hj with ⟨-, rfl, -⟩ | ⟨-, hj⟩
    · obtain rfl := Option.some.inj (hn.symm.trans hg)
      exact Handler.returns_of_inPass hpass
    · exact hret id j g hj hg

/-- It takes its step outside the jobs, or when it is inside the method. -/
theorem pass_steps (hs : LockedInv s) (hret : s.Returning) (hn : s.server.handler n = some h)
    (hpass : h.inPass = true)
    (hentered : ∀ job, h.calls s.server = some job → s.jobMutex job = some (n, .step)) :
    ∃ s' h' events, Advances n s 1 s' ∧ s'.server.handler n = some h' ∧
      Goes s.server h events s'.server.jobs h' ∧ s'.server.mutex = if h'.inPass then some n else none := by
  obtain ⟨m, server, events, hnext, horders⟩ := pass_ready n hpass (hs.pass.inList n h hn)
  obtain ⟨h', hhandler, hgoes, hmutex⟩ := next_spec hnext
  rw [hpass, if_pos rfl, (hs.pass.threads.mutex n h hn).mp hpass] at hmutex
  have hself : server.handler n = some h' := by rw [hhandler, Function.update_self]
  have hothers : ∀ j, j ≠ n → server.handler j = s.server.handler j := fun j hj => by
    rw [hhandler, Function.update_of_ne hj]
  cases hcalls : h.calls s.server with
  | none =>
      have hout : s.Outside n := outside_of_inPass hs hn hpass fun job hjob => nomatch hcalls.symm.trans hjob
      have hstep := LockedServer.Step.runs hn hcalls hout hnext horders
      refine ⟨_, h', events, ⟨⟨[events], .single hstep, le_refl _⟩, fun j hj hout => ⟨hothers j hj, hout⟩,
        lockedInv_step hs hstep, hret.others hs hhandler hgoes fun job j hj => ⟨hj, ?_, ?_⟩⟩, hself, hgoes, hmutex⟩
      · rintro rfl
        exact hout job .step hj
      · rw [hcalls]
        exact nofun
  | some job =>
      have hinside := hentered job hcalls
      have hstep := LockedServer.Step.leaves hn hinside hnext horders
      refine ⟨_, h', events, ⟨⟨[events], .single hstep, le_refl _⟩, fun j hj hout => ⟨hothers j hj, fun id m hid => ?_⟩,
        lockedInv_step hs hstep, hret.others hs hhandler hgoes fun id j hj => ?_⟩, hself, hgoes, hmutex⟩
      · exact hout id m (LockedServer.unlock_cases (s := s) hid).2
      · obtain ⟨hid, hj⟩ := LockedServer.unlock_cases (s := s) hj
        refine ⟨hj, ?_, fun heq => hid (Option.some.inj (heq.symm.trans hcalls))⟩
        rintro rfl
        exact hid (hs.inside.job_unique hinside hj)

/-- It takes its step when the job it calls is free, or when it is inside the method. -/
theorem pass_turn_of_ready (hs : LockedInv s) (hret : s.Returning) (hn : s.server.handler n = some h)
    (hpass : h.inPass = true) {job : ℕ} (hcalls : h.calls s.server = some job)
    (hready : s.jobMutex job = none ∨ s.jobMutex job = some (n, .step)) :
    ∃ s' h', Advances n s 2 s' ∧ s'.server.handler n = some h' ∧
      (s'.server.mutex = if h'.inPass then some n else none) ∧
      (h'.inPass = true → h'.left s'.server < h.left s.server) := by
  rcases hready with hfree | hinside
  · have hentered := pass_enters hs hret hn hpass hcalls hfree
    obtain ⟨s', h', events, hadv, hn', hgoes, hmutex⟩ :=
      pass_steps hentered.inv hentered.returning hn hpass fun job' hjob' => by
        obtain rfl := Option.some.inj (hcalls.symm.trans hjob')
        exact Function.update_self ..
    exact ⟨s', h', hentered.trans hadv, hn', hmutex, hgoes.left_lt hpass⟩
  · obtain ⟨s', h', events, hadv, hn', hgoes, hmutex⟩ := pass_steps hs hret hn hpass fun job' hjob' => by
      obtain rfl := Option.some.inj (hcalls.symm.trans hjob')
      exact hinside
    exact ⟨s', h', hadv.mono (by omega), hn', hmutex, hgoes.left_lt hpass⟩

/-- **One step of the thread that holds the lock of the list**, with what it waits for. -/
theorem pass_turn (hs : LockedInv s) (hret : s.Returning) (hn : s.server.handler n = some h)
    (hpass : h.inPass = true) :
    ∃ s' h', Advances n s 3 s' ∧ s'.server.handler n = some h' ∧
      (s'.server.mutex = if h'.inPass then some n else none) ∧
      (h'.inPass = true → h'.left s'.server < h.left s.server) := by
  cases hcalls : h.calls s.server with
  | none =>
      obtain ⟨s', h', events, hadv, hn', hgoes, hmutex⟩ := pass_steps hs hret hn hpass fun job hjob =>
        nomatch hcalls.symm.trans hjob
      exact ⟨s', h', hadv.mono (by omega), hn', hmutex, hgoes.left_lt hpass⟩
  | some job =>
      have hready : s.jobMutex job = none ∨ s.jobMutex job = some (n, .step) →
          ∃ s' h', Advances n s 3 s' ∧ s'.server.handler n = some h' ∧
            (s'.server.mutex = if h'.inPass then some n else none) ∧
            (h'.inPass = true → h'.left s'.server < h.left s.server) := fun hready => by
        obtain ⟨s', h', hadv, hrest⟩ := pass_turn_of_ready hs hret hn hpass hcalls hready
        exact ⟨s', h', hadv.mono (by omega), hrest⟩
      cases hmutex : s.jobMutex job with
      | none => exact hready (Or.inl hmutex)
      | some held =>
          obtain ⟨k, method⟩ := held
          by_cases hne : k = n
          · subst hne
            obtain ⟨g, hg, hat⟩ := hs.inside job k method hmutex
            obtain rfl := Option.some.inj (hn.symm.trans hg)
            cases method with
            | step => exact hready (Or.inr hmutex)
            | getter => exact nomatch (Handler.pointsTo_of_inPass hpass).symm.trans hat
          · -- another thread leaves the method first
            obtain ⟨t, hwaits, hn', hfree, hlist⟩ := pass_waits hs hret hn hpass hmutex hne
            obtain ⟨s', h', hadv, hn'', hmutex', hlt⟩ := pass_turn_of_ready hwaits.inv hwaits.returning hn' hpass
              ((Handler.calls_congr fun _ => hlist).trans hcalls) (Or.inl hfree)
            rw [Handler.left_congr hlist] at hlt
            exact ⟨s', h', hwaits.trans hadv, hn'', hmutex', hlt⟩

/-- The turns that are left to the thread end with the lock given back. -/
theorem pass_ends (hs : LockedInv s) (hret : s.Returning) (hn : s.server.handler n = some h)
    (hpass : h.inPass = true) :
    ∃ s', Advances n s (3 * (h.left s.server + 1)) s' ∧ s'.server.mutex = none := by
  induction hleft : h.left s.server using Nat.strong_induction_on generalizing s h with
  | _ l ih =>
      obtain ⟨t, h', hturn, hn', hmutex, hlt⟩ := pass_turn hs hret hn hpass
      cases hpass' : h'.inPass with
      | false =>
          rw [hpass'] at hmutex
          exact ⟨t, hturn.mono (by omega), hmutex⟩
      | true =>
          have hlt := hlt hpass'
          rw [hleft] at hlt
          obtain ⟨s', hrest, hfree⟩ := ih _ hlt hturn.inv hturn.returning hn' hpass' rfl
          exact ⟨s', (hturn.trans hrest).mono (by omega), hfree⟩

end

/-- **The lock of the list is given back.** In every state of the server in which thread `n` holds
    `task_list_mutex_`, whoever is inside a method of a job: if these methods return, each of these threads can
    leave its method at once, and `n` waits for nobody else. It gives the lock of the list back after at most
    `6 * k + 6` steps, its own and those that leave methods, where the run list has `k` jobs, and the threads
    that are inside no method of a job are not needed. -/
theorem list_lock_released {s : LockedServer K} (hrun : LockedServer.Run labels s) {n : ℕ}
    (hn : s.server.mutex = some n) (hret : s.Returning) :
    (∀ job k method, s.jobMutex job = some (k, method) →
      ∃ events s', LockedServer.Step s events s' ∧ s'.jobMutex = Function.update s.jobMutex job none) ∧
    ∃ labels' s', Trace LockedServer.Step s labels' s' ∧ s'.server.mutex = none ∧
      (∀ k, k ≠ n → s.Outside k → s'.server.handler k = s.server.handler k) ∧
      labels'.length ≤ 6 * s.server.jobs.runList.length + 6 := by
  have hs := lockedInv_run hrun
  refine ⟨fun job k method hk => ?_, ?_⟩
  · obtain ⟨events, s', hstep, -, hmutex, -⟩ := exists_leaves hs hret hk
    exact ⟨events, s', hstep, hmutex⟩
  · obtain ⟨h, hh⟩ := hs.pass.threads.holder n hn
    obtain ⟨s', hadv, hfree⟩ := pass_ends hs hret hh ((hs.pass.threads.mutex n h hh).mpr hn)
    obtain ⟨labels', hrun', hlen⟩ := hadv.run
    refine ⟨labels', s', hrun', hfree, fun k hk hout => (hadv.stays k hk hout).1, hlen.trans ?_⟩
    unfold Handler.left
    split <;> omega

end

/-- A worker asks for work while a client is inside `is_done` of the first job. -/
theorem list_lock_released_two : ∃ labels s h labels' s', LockedServer.Run (K := ℚ) labels s ∧
    s.server.mutex = some 2 ∧ s.server.handler 2 = some h ∧ h.calls s.server = some 0 ∧
    s.jobMutex 0 = some (3, .step) ∧ Trace LockedServer.Step s labels' s' ∧ s'.server.mutex = none := by
  have hfirst := Trace.nil.snoc (step_arrives (s := Server.start) 0 (.issueNewJob oneTileArgs) rfl)
  have hsecond := (hfirst.snoc (step_oneTile (n := 0) rfl rfl orders_added)).snoc
    (step_arrives 1 (.issueNewJob oneTileArgs) rfl)
  have hasked := (hsecond.snoc (step_oneTile (n := 1) rfl rfl orders_added)).snoc
    (step_arrives 3 (.checkJobStatus 0) rfl)
  obtain ⟨labels, hrun, -⟩ := Server.Run.locked (hasked.snoc (step_oneTile (n := 3) rfl rfl orders_none))
  have hentered := hrun.snoc (@LockedServer.Step.enters _ _ _ _ 3 0 _ rfl rfl nofun rfl)
  have harrived := hentered.snoc (@LockedServer.Step.arrives _ _ _ _ 2 (.requestSCAMPWork 1) rfl)
  have hheld : ∀ job k method, (Function.update (fun _ => none) 0 (some (3, .step)) : ℕ → Option (ℕ × Method)) job =
      some (k, method) → k = 3 := by
    intro job k method hjob
    rw [Function.update_apply] at hjob
    split at hjob
    · exact (Prod.mk.inj (Option.some.inj hjob)).1.symm
    · cases hjob
  have hpass := harrived.snoc (.runs (n := 2) (m := oneTileMoment) rfl rfl
    (fun job method hjob => absurd (hheld job 2 method hjob) (by decide)) rfl orders_none)
  obtain ⟨labels', s', hrun', hfree, -⟩ := (list_lock_released hpass rfl fun job k h hjob hk => by
    obtain rfl := hheld job k .step hjob
    obtain rfl := Option.some.inj hk
    trivial).2
  exact ⟨_, _, _, labels', s', hpass, rfl, rfl, rfl, rfl, hrun', hfree⟩

end Scamp
