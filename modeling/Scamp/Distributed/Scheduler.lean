import Scamp.Distributed.Job
import Scamp.Lib.Run

/-!
# `Distributed.Scheduler` — the tiles of a job, as a state machine

The scheduling half of a job, without its data: the status of the job, a queue, and for each tile a status
and the number of times it was queued again. An act is one elementary change: a method of the job is a
sequence of acts (`Distributed.Correctness.JobRun`).

`QueueInv` relates the queue, the statuses and the retries in every run, and bounds how often a tile is
handed out. When no failure is reported of a finished tile, `MergeInv` says that a tile is merged once and
stays finished. When a rejected job is never finished, `StatusInv` says what the status of the job means.
-/

namespace Scamp

open Lib
open SCAMPProto (JobStatus)

/-- What a job knows of its tiles `0`, …, `count - 1`. -/
structure Scheduler where
  status : JobStatus
  count : ℕ
  queue : List ℕ
  tile : ℕ → TileStatus
  retries : ℕ → ℕ
  completed : ℕ

/-- An elementary change. -/
inductive Act
  | retry (id : ℕ)
  | giveUp (id : ℕ)
  | handOut (id : ℕ)
  | timeOut (late : ℕ → Bool)
  | report (id : ℕ)
  | merge (id : ℕ)
  | finish

namespace Scheduler

/-- The tile has failed and is not queued. -/
def Failed (c : Scheduler) (id : ℕ) : Prop := id < c.count ∧ id ∉ c.queue ∧ c.tile id = .failed

/-- What must hold for an act to happen. -/
def Enabled (c : Scheduler) : Act → Prop
  | .retry id => c.Failed id ∧ c.retries id ≤ maxTileRetries
  | .giveUp id => c.status = .running ∧ c.Failed id ∧ maxTileRetries < c.retries id
  | .handOut id => ∃ rest, c.queue = id :: rest
  | .timeOut _ => True
  | .report id => id < c.count
  | .merge id => id < c.count ∧ c.tile id = .running
  | .finish => ∀ id < c.count, c.tile id = .finished

/-- The state after an act. -/
def step (c : Scheduler) : Act → Scheduler
  | .retry id =>
      { c with queue := c.queue ++ [id], retries := Function.update c.retries id (c.retries id + 1) }
  | .giveUp _ => { c with status := .failed }
  | .handOut id => { c with queue := c.queue.tail, tile := Function.update c.tile id .running }
  | .timeOut late =>
      { c with tile := fun id => if id < c.count ∧ c.tile id = .running ∧ late id then .failed else c.tile id }
  | .report id => { c with tile := Function.update c.tile id .failed }
  | .merge id => { c with tile := Function.update c.tile id .finished, completed := c.completed + 1 }
  | .finish => { c with status := .finished }

/-- An act that meets a condition on the state it finds. -/
def Step (P : Scheduler → Act → Prop) (c : Scheduler) (act : Act) (c' : Scheduler) : Prop :=
  c.Enabled act ∧ P c act ∧ c' = c.step act

end Scheduler

/-- What an act shows. -/
def Act.events : Act → List Event
  | .handOut id => [.handedOut id]
  | .merge id => [.merged id]
  | _ => []

/-- The events of a run. -/
def actEvents (acts : List Act) : List Event := acts.flatMap Act.events

namespace Scheduler
variable {P : Scheduler → Act → Prop} {start c : Scheduler} {acts : List Act}

@[simp] theorem actEvents_append (acts : List Act) (act : Act) :
    actEvents (acts ++ [act]) = actEvents acts ++ act.events := by
  simp [actEvents]

@[simp] theorem step_count (c : Scheduler) (act : Act) : (c.step act).count = c.count := by
  cases act <;> rfl

/-- The state in which a job starts: all tiles ready and queued. -/
structure Fresh (c : Scheduler) : Prop where
  queue : c.queue = List.range c.count
  tile : ∀ id < c.count, c.tile id = .ready
  retries : ∀ id, c.retries id = 0
  completed : c.completed = 0

/-! ## The queue -/

/-- How the queue, the statuses and the retries belong together. -/
structure QueueInv (acts : List Act) (c : Scheduler) : Prop where
  nodup : c.queue.Nodup
  inRange : ∀ id ∈ c.queue, id < c.count
  queued : ∀ id ∈ c.queue, c.tile id = .ready ∨ c.tile id = .failed
  unqueued : ∀ id < c.count, id ∉ c.queue → c.tile id = .running ∨ c.tile id = .finished ∨ c.tile id = .failed
  retries : ∀ id, c.retries id ≤ maxTileRetries + 1
  -- a tile leaves the queue once for each time it was put there
  handed : ∀ id, (actEvents acts).count (.handedOut id) + c.queue.count id ≤ 1 + c.retries id

theorem queueInv_start (h : Fresh start) : QueueInv [] start where
  nodup := h.queue ▸ List.nodup_range
  inRange id hid := List.mem_range.mp (h.queue ▸ hid)
  queued id hid := Or.inl (h.tile id (List.mem_range.mp (h.queue ▸ hid)))
  unqueued id hid hnot := absurd (h.queue ▸ List.mem_range.mpr hid) hnot
  retries id := by
    rw [h.retries]
    exact Nat.zero_le _
  handed id := by
    have hcount : start.queue.count id ≤ 1 :=
      List.nodup_iff_count_le_one.mp (h.queue ▸ List.nodup_range) id
    simp only [actEvents, List.flatMap_nil, List.count_nil, h.retries]
    omega

/-- An act that only changes statuses keeps the queue in order: a tile may fail, and one that runs may finish. -/
theorem QueueInv.restatus {act : Act} (h : QueueInv acts c) (hqueue : (c.step act).queue = c.queue)
    (hretries : (c.step act).retries = c.retries) (hshown : ∀ id, act.events.count (.handedOut id) = 0)
    (htile : ∀ id, (c.step act).tile id = c.tile id ∨ (c.step act).tile id = .failed ∨
      (c.tile id = .running ∧ (c.step act).tile id = .finished)) : QueueInv (acts ++ [act]) (c.step act) where
  nodup := by
    rw [hqueue]
    exact h.nodup
  inRange k hk := by
    rw [hqueue] at hk
    rw [step_count]
    exact h.inRange k hk
  queued k hk := by
    rw [hqueue] at hk
    have hqueued := h.queued k hk
    rcases htile k with heq | hfailed | ⟨hrunning, _⟩
    · rw [heq]
      exact hqueued
    · exact Or.inr hfailed
    · -- a tile that runs is not queued
      rw [hrunning] at hqueued
      rcases hqueued with hq | hq <;> cases hq
  unqueued k hk hkq := by
    rw [step_count] at hk
    rw [hqueue] at hkq
    rcases htile k with heq | hfailed | ⟨_, hfinished⟩
    · rw [heq]
      exact h.unqueued k hk hkq
    · exact Or.inr (Or.inr hfailed)
    · exact Or.inr (Or.inl hfinished)
  retries k := by
    rw [hretries]
    exact h.retries k
  handed k := by
    rw [actEvents_append, List.count_append, hshown, hqueue, hretries]
    exact h.handed k

/-- A failed tile goes to the end of the queue. -/
theorem QueueInv.retry {id : ℕ} (h : QueueInv acts c) (hfailed : c.Failed id)
    (hretries : c.retries id ≤ maxTileRetries) : QueueInv (acts ++ [.retry id]) (c.step (.retry id)) := by
  obtain ⟨hid, hnot, htile⟩ := hfailed
  refine ⟨?_, ?_, ?_, ?_, ?_, ?_⟩
  · exact List.nodup_append'.mpr ⟨h.nodup, List.nodup_singleton id, by simpa using hnot⟩
  · intro k hk
    rcases List.mem_append.mp hk with hk | hk
    · exact h.inRange k hk
    · exact List.mem_singleton.mp hk ▸ hid
  · intro k hk
    rcases List.mem_append.mp hk with hk | hk
    · exact h.queued k hk
    · exact Or.inr (List.mem_singleton.mp hk ▸ htile)
  · intro k hk hkq
    exact h.unqueued k hk fun hmem => hkq (List.mem_append_left _ hmem)
  · intro k
    by_cases hk : k = id
    · subst hk
      simpa [step] using hretries
    · simpa [step, hk] using h.retries k
  · -- one more place in the queue, and one more retry
    intro k
    have hhanded := h.handed k
    by_cases hk : k = id
    · subst hk
      simp [step, Act.events]
      omega
    · have hne : ¬id = k := fun h => hk h.symm
      simp [step, Act.events, hk, hne]
      omega

/-- The first of the queue leaves it and runs. -/
theorem QueueInv.handOut {id : ℕ} {rest : List ℕ} (h : QueueInv acts c) (hrest : c.queue = id :: rest) :
    QueueInv (acts ++ [.handOut id]) (c.step (.handOut id)) := by
  have hnodup := h.nodup
  rw [hrest, List.nodup_cons] at hnodup
  refine ⟨?_, ?_, ?_, ?_, h.retries, ?_⟩
  · simpa [step, hrest] using hnodup.2
  · intro k hk
    exact h.inRange k (List.mem_of_mem_tail hk)
  · intro k hk
    have hk' : k ∈ rest := by simpa [step, hrest] using hk
    have hne : k ≠ id := fun heq => hnodup.1 (heq ▸ hk')
    simpa [step, hne] using h.queued k (List.mem_of_mem_tail hk)
  · intro k hk hkq
    by_cases hne : k = id
    · left
      simp [step, hne]
    · have hnot : k ∉ c.queue := by
        rw [hrest]
        simpa [step, hrest, hne] using hkq
      simpa [step, hne] using h.unqueued k hk hnot
  · -- what was a place in the queue is a hand-out
    intro k
    have hhanded := h.handed k
    rw [hrest] at hhanded
    by_cases hk : id = k
    · subst hk
      simp [step, hrest, Act.events] at hhanded ⊢
      omega
    · simp [step, hrest, Act.events, hk] at hhanded ⊢
      omega

/-- **Every act keeps the queue in order.** -/
theorem queueInv_step {act : Act} (h : QueueInv acts c) (henabled : c.Enabled act) :
    QueueInv (acts ++ [act]) (c.step act) := by
  cases act with
  | retry id => exact h.retry henabled.1 henabled.2
  | giveUp id => exact h.restatus rfl rfl (fun _ => rfl) fun _ => Or.inl rfl
  | handOut id =>
      obtain ⟨rest, hrest⟩ := henabled
      exact h.handOut hrest
  | timeOut late =>
      refine h.restatus rfl rfl (fun _ => rfl) fun k => ?_
      simp only [step]
      split
      · exact Or.inr (Or.inl rfl)
      · exact Or.inl rfl
  | report id =>
      refine h.restatus rfl rfl (fun _ => rfl) fun k => ?_
      by_cases hne : k = id
      · right
        left
        simp [step, hne]
      · left
        simp [step, hne]
  | merge id =>
      refine h.restatus rfl rfl (fun _ => by simp [Act.events]) fun k => ?_
      by_cases hne : k = id
      · subst hne
        exact Or.inr (Or.inr ⟨henabled.2, by simp [step]⟩)
      · left
        simp [step, hne]
  | finish => exact h.restatus rfl rfl (fun _ => rfl) fun _ => Or.inl rfl

/-- The queue is in order in every run. -/
theorem queueInv_run (hstart : Fresh start) (h : Trace (Step P) start acts c) : QueueInv acts c := by
  refine h.inv (I := QueueInv) (queueInv_start hstart) ?_
  rintro labels s act s' _ hs ⟨henabled, _, rfl⟩
  exact queueInv_step hs henabled

/-- **No tile is handed out more than `MAX_TILE_RETRIES + 2` times.** -/
theorem handed_le (hstart : Fresh start) (h : Trace (Step P) start acts c) (id : ℕ) :
    (actEvents acts).count (.handedOut id) ≤ maxTileRetries + 2 := by
  have hinv := queueInv_run hstart h
  have hhanded := hinv.handed id
  have hretries := hinv.retries id
  omega

/-- Only tiles of the job are handed out. -/
theorem handed_lt (hstart : Fresh start) (h : Trace (Step P) start acts c) {id : ℕ}
    (hhanded : .handedOut id ∈ actEvents acts) : id < c.count := by
  refine h.inv (I := fun acts c => .handedOut id ∈ actEvents acts → id < c.count) (fun hnil => absurd hnil (by
    simp [actEvents])) ?_ hhanded
  rintro acts s act s' hbefore ih ⟨henabled, _, rfl⟩ hmem
  have hcount : (s.step act).count = s.count := by cases act <;> rfl
  rw [hcount]
  rw [actEvents_append] at hmem
  rcases List.mem_append.mp hmem with hmem | hmem
  · exact ih hmem
  · cases act with
    | handOut k =>
        obtain ⟨rest, hqueue⟩ := henabled
        obtain rfl : id = k := by simpa [actEvents, Act.events] using hmem
        exact (queueInv_run hstart hbefore).inRange id (hqueue ▸ List.mem_cons_self)
    | _ => simp [Act.events] at hmem

/-! ## What is merged -/

/-- `1` for a finished tile. -/
def finishedCount (status : TileStatus) : ℕ := if status = .finished then 1 else 0

/-- No failure is reported of a finished tile. -/
def ReportsUnfinished (c : Scheduler) (act : Act) : Prop := ∀ id, act = .report id → c.tile id ≠ .finished

/-- **What an act does to the finished tiles**: one is added for each tile it merges, none is taken away. -/
theorem finishedCount_step {act : Act} (h : QueueInv acts c) (henabled : c.Enabled act)
    (hreports : ReportsUnfinished c act) (id : ℕ) :
    finishedCount ((c.step act).tile id) = finishedCount (c.tile id) + act.events.count (.merged id) := by
  cases act with
  | retry k => simp [step, Act.events]
  | giveUp k => simp [step, Act.events]
  | handOut k =>
      obtain ⟨rest, hrest⟩ := henabled
      by_cases hk : id = k
      · subst hk
        have hqueued := h.queued id (hrest ▸ List.mem_cons_self)
        rcases hqueued with hq | hq <;> simp [step, Act.events, finishedCount, hq]
      · simp [step, Act.events, hk]
  | timeOut late =>
      simp only [step, Act.events, List.count_nil, Nat.add_zero]
      split
      · next hlate => simp [finishedCount, hlate.2.1]
      · rfl
  | report k =>
      by_cases hk : id = k
      · subst hk
        simp [step, Act.events, finishedCount, hreports id rfl]
      · simp [step, Act.events, hk]
  | merge k =>
      by_cases hk : id = k
      · subst hk
        simp [step, Act.events, finishedCount, henabled.2]
      · have hne : ¬k = id := fun h => hk h.symm
        simp [step, Act.events, hk, hne]
  | finish => simp [step, Act.events]

/-- Merges, finished tiles and the counter of completed tiles belong together. -/
structure MergeInv (acts : List Act) (c : Scheduler) : Prop where
  queue : QueueInv acts c
  merged : ∀ id < c.count, (actEvents acts).count (.merged id) = finishedCount (c.tile id)
  completed : c.completed = ∑ id ∈ Finset.range c.count, finishedCount (c.tile id)

theorem mergeInv_start (h : Fresh start) : MergeInv [] start where
  queue := queueInv_start h
  merged id hid := by simp [actEvents, finishedCount, h.tile id hid]
  completed := by
    rw [h.completed]
    refine (Finset.sum_eq_zero fun id hid => ?_).symm
    simp [finishedCount, h.tile id (Finset.mem_range.mp hid)]

/-- The tiles an act merges are counted. -/
theorem completed_step {act : Act} (henabled : c.Enabled act) :
    (c.step act).completed = c.completed + ∑ id ∈ Finset.range c.count, act.events.count (.merged id) := by
  cases act with
  | merge k =>
      have hk := Finset.mem_range.mpr henabled.1
      simp [step, Act.events, List.count_singleton, hk]
  | _ => simp [step, Act.events]

/-- **Every act keeps merges and finished tiles together**, unless it reports a finished tile. -/
theorem mergeInv_step {act : Act} (h : MergeInv acts c) (henabled : c.Enabled act)
    (hreports : ReportsUnfinished c act) : MergeInv (acts ++ [act]) (c.step act) where
  queue := queueInv_step h.queue henabled
  merged id hid := by
    rw [step_count] at hid
    rw [actEvents_append, List.count_append, h.merged id hid, finishedCount_step h.queue henabled hreports]
  completed := by
    rw [completed_step henabled, h.completed, step_count, ← Finset.sum_add_distrib]
    exact Finset.sum_congr rfl fun id _ => (finishedCount_step h.queue henabled hreports id).symm

theorem mergeInv_run (hP : ∀ c act, P c act → ReportsUnfinished c act) (hstart : Fresh start)
    (h : Trace (Step P) start acts c) : MergeInv acts c := by
  refine h.inv (I := MergeInv) (mergeInv_start hstart) ?_
  rintro labels s act s' _ hs ⟨henabled, hact, rfl⟩
  exact mergeInv_step hs henabled (hP s act hact)

/-- **A finished tile stays finished**, whatever is done next. -/
theorem finished_stays (hP : ∀ c act, P c act → ReportsUnfinished c act) (hstart : Fresh start)
    (h : Trace (Step P) start acts c) {acts' : List Act} {c' : Scheduler}
    (h' : Trace (Step P) c acts' c') {id : ℕ} (hid : c.tile id = .finished) : c'.tile id = .finished := by
  induction h' with
  | nil => exact hid
  | @snoc labels s act s' hrun hstep ih =>
      obtain ⟨henabled, hact, rfl⟩ := hstep
      have hinv := (mergeInv_run hP hstart (h.append hrun)).queue
      have hcount := finishedCount_step hinv henabled (hP s act hact) id
      by_contra hnot
      simp [finishedCount, ih, hnot] at hcount
      omega

/-! ## The status of the job -/

/-- A rejected job is not finished. -/
def FinishesAccepted (c : Scheduler) (act : Act) : Prop := act = .finish → c.status ≠ .invalid

/-- What the status of the job says of its tiles. -/
structure StatusInv (start : Scheduler) (acts : List Act) (c : Scheduler) : Prop where
  invalid : c.status = .invalid ↔ start.status = .invalid
  failed : c.status = .failed → ∃ id, c.Failed id ∧ maxTileRetries < c.retries id
  finished : c.status = .finished → ∀ id < c.count, .merged id ∈ actEvents acts
  finishedTile : ∀ id < c.count, c.tile id = .finished → .merged id ∈ actEvents acts

theorem statusInv_start (h : Fresh start) (hstatus : start.status = .running ∨ start.status = .invalid) :
    StatusInv start [] start where
  invalid := Iff.rfl
  failed hf := by rcases hstatus with hs | hs <;> (rw [hs] at hf; cases hf)
  finished hf := by rcases hstatus with hs | hs <;> (rw [hs] at hf; cases hf)
  finishedTile id hid hf := by
    rw [h.tile id hid] at hf
    cases hf

/-- A tile that has failed too often stays so: it is not queued again, and nothing but the queue hands it
    out. -/
theorem failed_stays {act : Act} (henabled : c.Enabled act) {id : ℕ} (hfailed : c.Failed id)
    (hretries : maxTileRetries < c.retries id) :
    (c.step act).Failed id ∧ maxTileRetries < (c.step act).retries id := by
  obtain ⟨hid, hnot, htile⟩ := hfailed
  cases act with
  | retry k =>
      have hne : id ≠ k := by
        rintro rfl
        exact absurd hretries (Nat.not_lt.mpr henabled.2)
      exact ⟨⟨hid, by simpa [step, hne] using hnot, htile⟩, by simpa [step, hne] using hretries⟩
  | giveUp k => exact ⟨⟨hid, hnot, htile⟩, hretries⟩
  | handOut k =>
      obtain ⟨rest, hrest⟩ := henabled
      have hne : id ≠ k := by
        rintro rfl
        exact hnot (hrest ▸ List.mem_cons_self)
      exact ⟨⟨hid, fun hmem => hnot (List.mem_of_mem_tail hmem), by simpa [step, hne] using htile⟩, hretries⟩
  | timeOut late => exact ⟨⟨hid, hnot, by simp [step, htile]⟩, hretries⟩
  | report k =>
      refine ⟨⟨hid, hnot, ?_⟩, hretries⟩
      by_cases hk : id = k
      · simp [step, hk]
      · simpa [step, hk] using htile
  | merge k =>
      have hne : id ≠ k := by
        rintro rfl
        have := henabled.2
        rw [htile] at this
        cases this
      exact ⟨⟨hid, hnot, by simpa [step, hne] using htile⟩, hretries⟩
  | finish => exact ⟨⟨hid, hnot, htile⟩, hretries⟩

/-- **A final status stays.** -/
theorem status_stays {act : Act} (h : StatusInv start acts c) (henabled : c.Enabled act)
    (haccepted : FinishesAccepted c act)
    (hfinal : c.status = .invalid ∨ c.status = .failed ∨ c.status = .finished) :
    (c.step act).status = c.status := by
  cases act with
  | giveUp k =>
      have hrunning := henabled.1
      rw [hrunning] at hfinal
      rcases hfinal with hs | hs | hs <;> cases hs
  | finish =>
      rcases hfinal with hs | hs | hs
      · exact absurd hs (haccepted rfl)
      · -- some tile has failed for good, so that not all are finished
        obtain ⟨id, ⟨hid, _, htile⟩, _⟩ := h.failed hs
        have hfinished : c.tile id = .finished := henabled id hid
        rw [htile] at hfinished
        cases hfinished
      · exact hs.symm
  | _ => rfl

/-- **Every act keeps the meaning of the status**, unless it finishes a rejected job. -/
theorem statusInv_step {act : Act} (h : StatusInv start acts c) (henabled : c.Enabled act)
    (haccepted : FinishesAccepted c act) : StatusInv start (acts ++ [act]) (c.step act) := by
  have hkeep : ∀ id, .merged id ∈ actEvents acts → .merged id ∈ actEvents (acts ++ [act]) := by
    intro id hmem
    rw [actEvents_append]
    exact List.mem_append_left _ hmem
  -- a tile that is finished now has been merged now or before
  have htile : ∀ id < (c.step act).count, (c.step act).tile id = .finished →
      .merged id ∈ actEvents (acts ++ [act]) := by
    intro id hid hfinished
    rw [step_count] at hid
    cases act with
    | merge k =>
        by_cases hk : id = k
        · subst hk
          simp [Act.events]
        · exact hkeep id (h.finishedTile id hid (by simpa [step, hk] using hfinished))
    | handOut k =>
        by_cases hk : id = k
        · simp [step, hk] at hfinished
        · exact hkeep id (h.finishedTile id hid (by simpa [step, hk] using hfinished))
    | timeOut late =>
        simp only [step] at hfinished
        split at hfinished
        · cases hfinished
        · exact hkeep id (h.finishedTile id hid hfinished)
    | report k =>
        by_cases hk : id = k
        · simp [step, hk] at hfinished
        · exact hkeep id (h.finishedTile id hid (by simpa [step, hk] using hfinished))
    | _ => exact hkeep id (h.finishedTile id hid hfinished)
  by_cases hfinal : c.status = .invalid ∨ c.status = .failed ∨ c.status = .finished
  · have hstays := status_stays h henabled haccepted hfinal
    refine ⟨?_, fun hs => ?_, fun hs id hid => ?_, htile⟩
    · rw [hstays]
      exact h.invalid
    · obtain ⟨id, hfailed, hretries⟩ := h.failed (hstays ▸ hs)
      exact ⟨id, failed_stays henabled hfailed hretries⟩
    · rw [step_count] at hid
      exact hkeep id (h.finished (hstays ▸ hs) id hid)
  · -- the job was running: only giving up and finishing end that
    have hinvalid : ¬start.status = .invalid := fun hs => hfinal (Or.inl (h.invalid.mpr hs))
    have hnot : ¬c.status = .invalid := fun hs => hfinal (Or.inl hs)
    have hnotFailed : ¬c.status = .failed := fun hs => hfinal (Or.inr (Or.inl hs))
    have hnotFinished : ¬c.status = .finished := fun hs => hfinal (Or.inr (Or.inr hs))
    cases act with
    | giveUp k =>
        refine ⟨?_, fun _ => ⟨k, henabled.2⟩, nofun, htile⟩
        simp [step, hinvalid]
    | finish =>
        refine ⟨by simp [step, hinvalid], nofun, fun _ id hid => ?_, htile⟩
        exact hkeep id (h.finishedTile id hid (henabled id hid))
    | _ =>
        refine ⟨?_, fun hs => absurd hs hnotFailed, fun hs => absurd hs hnotFinished, htile⟩
        exact iff_of_false hnot hinvalid

theorem statusInv_run (hP : ∀ c act, P c act → FinishesAccepted c act) (hstart : Fresh start)
    (hstatus : start.status = .running ∨ start.status = .invalid) (h : Trace (Step P) start acts c) :
    StatusInv start acts c := by
  refine h.inv (I := StatusInv start) (statusInv_start hstart hstatus) ?_
  rintro labels s act s' _ hs ⟨henabled, hact, rfl⟩
  exact statusInv_step hs henabled (hP s act hact)

/-- A job that is finished was finished by an act that was allowed. -/
theorem finish_allowed {Q : Prop} (hP : ∀ c, P c .finish → Q) (hstart : start.status ≠ .finished)
    (h : Trace (Step P) start acts c) (hfinished : c.status = .finished) : Q := by
  by_contra hnot
  refine h.inv (I := fun _ c => c.status ≠ .finished) hstart ?_ hfinished
  rintro labels s act s' - hs ⟨henabled, hact, rfl⟩
  cases act with
  | finish => exact absurd (hP s hact) hnot
  | giveUp k => exact nofun
  | _ => exact hs

/-- A final status stays, whatever is done next. -/
theorem final_stays (hP : ∀ c act, P c act → FinishesAccepted c act) (hstart : Fresh start)
    (hstatus : start.status = .running ∨ start.status = .invalid) (h : Trace (Step P) start acts c)
    {acts' : List Act} {c' : Scheduler} (h' : Trace (Step P) c acts' c')
    (hfinal : c.status = .invalid ∨ c.status = .failed ∨ c.status = .finished) : c'.status = c.status := by
  induction h' with
  | nil => rfl
  | @snoc labels s act s' hrun hstep ih =>
      obtain ⟨henabled, hact, rfl⟩ := hstep
      have hinv := statusInv_run hP hstart hstatus (h.append hrun)
      rw [← ih]
      exact status_stays hinv henabled (hP s act hact) (by rwa [ih])

end Scheduler

end Scamp
