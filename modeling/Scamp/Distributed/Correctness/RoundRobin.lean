import Scamp.Distributed.JobList
import Scamp.Lib.RoundRobin

/-!
# `Distributed.Correctness.RoundRobin` — taking turns among the running jobs

A call of `ScheduleRoundRobin` is a turn around the run list (`scheduleRoundRobin_turn`): it asks the jobs
from the front on, each once, until one has work. Calls that follow each other while no job is added or
removed are the turns of one queue, whatever happens to the jobs between them, so that the fairness of
`Lib.RoundRobin` holds of them (`roundRobin_fair`).
-/

namespace Scamp

open Lib

namespace JobList
variable {J E : Type} (hasWork : J → E → J × Bool) (env : ℕ → E) (task : ℕ → J)

/-! ## One call -/

/-- The jobs after the first `asked` of a run list have been asked, each once and in turn. -/
def afterAsking (runList : List ℕ) (asked : ℕ) : ℕ → J :=
  fun id => if id ∈ runList.take asked then (hasWork (task id) (env (runList.idxOf id))).1 else task id

/-- What a job answers in a call that asks it. -/
def answer (runList : List ℕ) (id : ℕ) : Bool := (hasWork (task id) (env (runList.idxOf id))).2

/-- What a call does to the jobs and to the run list, and what it returns: a turn around the run list, in
    which the jobs at its front are asked, all of them if none has work. -/
structure TurnTaken (runList : List ℕ) (r : (ℕ → J) × List ℕ × Option ℕ) : Prop where
  turn : Turn (fun id => answer hasWork env task runList id = true) runList r.2.2 r.2.1
  asked : ∃ asked ≤ runList.length, r.1 = afterAsking hasWork env task runList asked ∧
    r.2.1 = runList.rotate asked ∧ (r.2.2 = none → asked = runList.length)

/-- When all have been asked the loop ends. -/
theorem roundRobinFrom_length (runList : List ℕ) :
    roundRobinFrom hasWork env runList.length task runList = (task, runList, none) := by
  cases runList with
  | nil => simp only [roundRobinFrom]
  | cons id rest => rw [roundRobinFrom, if_neg (Nat.lt_irrefl _)]

/-- The position of the job that is asked after those in `passed`. -/
theorem idxOf_passed {passed rest : List ℕ} {id : ℕ} (hnot : id ∉ passed) :
    (passed ++ id :: rest).idxOf id = passed.length := by
  rw [List.idxOf_append_of_notMem hnot, List.idxOf_cons_self, Nat.add_zero]

/-- Asking the next job. -/
theorem afterAsking_succ {passed rest : List ℕ} {id : ℕ} (hnot : id ∉ passed) :
    Function.update (afterAsking hasWork env task (passed ++ id :: rest) passed.length) id
        (hasWork (task id) (env passed.length)).1 =
      afterAsking hasWork env task (passed ++ id :: rest) (passed.length + 1) := by
  funext other
  unfold afterAsking
  rw [Function.update_apply, List.take_left, List.append_cons,
    show passed.length + 1 = (passed ++ [id]).length by simp, List.take_left]
  by_cases hid : other = id
  · rw [if_pos hid, hid, ← List.append_cons, idxOf_passed hnot, if_pos (by simp)]
  · rw [if_neg hid]
    simp [hid]

/-- The loop after the jobs in `passed` have been asked and had no work. -/
theorem roundRobinFrom_passed (rest : List ℕ) :
    ∀ passed : List ℕ, (passed ++ rest).Nodup →
      (∀ id ∈ passed, answer hasWork env task (passed ++ rest) id = false) →
      TurnTaken hasWork env task (passed ++ rest)
        (roundRobinFrom hasWork env passed.length
          (afterAsking hasWork env task (passed ++ rest) passed.length) (rest ++ passed)) := by
  induction rest with
  | nil =>
      intro passed _ hpassed
      simp only [List.nil_append, List.append_nil] at *
      rw [roundRobinFrom_length]
      refine ⟨.idle passed fun id hid => ?_, passed.length, Nat.le_refl _, rfl,
        (List.rotate_length passed).symm, fun _ => rfl⟩
      rw [hpassed id hid]
      exact Bool.false_ne_true
  | cons id rest ih =>
      intro passed hnodup hpassed
      have hnot : id ∉ passed := by
        intro hmem
        exact (List.nodup_append.mp hnodup).2.2 id hmem id List.mem_cons_self rfl
      -- the job has not changed since the call began
      have htask : afterAsking hasWork env task (passed ++ id :: rest) passed.length id = task id := by
        unfold afterAsking
        rw [List.take_left, if_neg hnot]
      have hanswer : answer hasWork env task (passed ++ id :: rest) id =
          (hasWork (task id) (env passed.length)).2 := by
        unfold answer
        rw [idxOf_passed hnot]
      have hassoc : passed ++ id :: rest = passed ++ [id] ++ rest := List.append_cons passed id rest
      rw [List.cons_append, roundRobinFrom, if_pos (by simp)]
      dsimp only
      rw [htask, afterAsking_succ hasWork env task hnot, ← hanswer, List.append_assoc]
      by_cases hwork : answer hasWork env task (passed ++ id :: rest) id = true
      · rw [if_pos hwork]
        refine ⟨.found passed id rest (fun y hy => ?_) hwork, passed.length + 1, by simp, rfl, ?_, by simp⟩
        · rw [hpassed y hy]
          exact Bool.false_ne_true
        · rw [hassoc, show passed.length + 1 = (passed ++ [id]).length by simp,
            List.rotate_append_length_eq]
      · rw [if_neg hwork]
        have hpassed' : ∀ y ∈ passed ++ [id], answer hasWork env task (passed ++ id :: rest) y = false := by
          intro y hy
          rcases List.mem_append.mp hy with hold | hnew
          · exact hpassed y hold
          · rw [List.mem_singleton.mp hnew]
            simpa using hwork
        rw [hassoc] at hnodup hpassed' ⊢
        have hnext := ih (passed ++ [id]) hnodup hpassed'
        rwa [List.length_append, List.length_singleton] at hnext

/-- **One call** is a turn around the run list. -/
theorem scheduleRoundRobin_turn (l : JobList J) :
    TurnTaken hasWork env l.task l.runList ((l.scheduleRoundRobin hasWork env).1.task,
      (l.scheduleRoundRobin hasWork env).1.runList, (l.scheduleRoundRobin hasWork env).2) := by
  have hstart : afterAsking hasWork env l.task ([] ++ l.runList) ([] : List ℕ).length = l.task := by
    funext id
    exact if_neg List.not_mem_nil
  have h := roundRobinFrom_passed hasWork env l.task l.runList [] l.nodup
    (fun _ h => absurd h List.not_mem_nil)
  rwa [hstart, List.append_nil] at h

/-! ## Calls after each other -/

/-- Calls between which no job is added or removed: `l n` is the job list when call `n` begins, with the run
    list that the call before it left. What happens to the jobs in between is left open. -/
structure Calls (hasWork : J → E → J × Bool) (env : ℕ → ℕ → E) (l : ℕ → JobList J)
    (result : ℕ → Option ℕ) : Prop where
  result_eq : ∀ n, result n = ((l n).scheduleRoundRobin hasWork (env n)).2
  runList_eq : ∀ n, (l (n + 1)).runList = ((l n).scheduleRoundRobin hasWork (env n)).1.runList

/-- A job has work in call `n`. -/
def HasWorkIn (hasWork : J → E → J × Bool) (env : ℕ → ℕ → E) (l : ℕ → JobList J) (n id : ℕ) : Prop :=
  answer hasWork (env n) (l n).task (l n).runList id = true

variable {hasWork} {env : ℕ → ℕ → E} {l : ℕ → JobList J} {result : ℕ → Option ℕ}

/-- The calls are the turns of a queue. -/
theorem Calls.turns (h : Calls hasWork env l result) :
    Turns (HasWorkIn hasWork env l) (fun n => (l n).runList) result := by
  intro n
  rw [h.result_eq n]
  show Turn _ _ _ (l (n + 1)).runList
  rw [h.runList_eq n]
  exact (scheduleRoundRobin_turn hasWork (env n) (l n)).turn

theorem Calls.length_eq (h : Calls hasWork env l result) (n : ℕ) :
    (l n).runList.length = (l 0).runList.length := by
  obtain ⟨m, hm⟩ := h.turns.rotate n
  rw [show (l n).runList = _ from hm, List.length_rotate]

/-- Each job that waits has exactly one of the turns that go down the queue. -/
theorem existsUnique_turn {q : List ℕ} {r : ℕ → Option ℕ} {n : ℕ} (hnodup : q.Nodup)
    (h : (List.range q.length).map (fun j => r (n + j)) = q.map some) {id : ℕ} (hid : id ∈ q) :
    ∃! j, j < q.length ∧ r (n + j) = some id := by
  have hget : ∀ j, (hj : j < q.length) → r (n + j) = some (q.get ⟨j, hj⟩) := by
    intro j hj
    have := congrArg (fun l => l[j]?) h
    simpa [hj] using this
  obtain ⟨⟨i, hi⟩, hiid⟩ := List.get_of_mem hid
  refine ⟨i, ⟨hi, by rw [hget i hi, hiid]⟩, ?_⟩
  rintro j ⟨hj, hr⟩
  rw [hget j hj, Option.some.injEq, ← hiid] at hr
  exact congrArg Fin.val (hnodup.get_inj_iff.mp hr)

/-- **Round robin is fair.** A call takes a turn around the run list: it rotates it past the first job that
    has work, which it returns, or asks every job once and returns none. In calls between which no job is
    added or removed, a job that has work in each of `k` consecutive calls, for `k` jobs, is returned by one
    of them; and when all jobs have work in each of these calls, every job is returned by exactly one. -/
theorem roundRobin_fair (hasWork : J → E → J × Bool) :
    (∀ (env : ℕ → E) (l : JobList J),
      TurnTaken hasWork env l.task l.runList ((l.scheduleRoundRobin hasWork env).1.task,
        (l.scheduleRoundRobin hasWork env).1.runList, (l.scheduleRoundRobin hasWork env).2)) ∧
    ∀ (env : ℕ → ℕ → E) (l : ℕ → JobList J) (result : ℕ → Option ℕ), Calls hasWork env l result →
      ∀ n, (l n).runList.length = (l 0).runList.length ∧
        (∀ id ∈ (l n).runList, (∀ j < (l n).runList.length, HasWorkIn hasWork env l (n + j) id) →
          ∃ j < (l n).runList.length, result (n + j) = some id) ∧
        ((∀ j < (l n).runList.length, ∀ id ∈ (l (n + j)).runList, HasWorkIn hasWork env l (n + j) id) →
          ∀ id ∈ (l n).runList, ∃! j, j < (l n).runList.length ∧ result (n + j) = some id) := by
  refine ⟨fun env l => scheduleRoundRobin_turn hasWork env l, ?_⟩
  intro env l result h n
  refine ⟨h.length_eq n, ?_, ?_⟩
  · intro id hid hwork
    exact fair_of_ready h.turns n hwork hid
  · intro hall id hid
    exact existsUnique_turn (l n).nodup (everyone_once h.turns n hall) hid

/-- Two jobs that always have work, call after call. -/
def twoJobs : ℕ → JobList Unit
  | 0 => ((JobList.empty.addJob ()).1.addJob ()).1
  | n + 1 => ((twoJobs n).scheduleRoundRobin (fun job (_ : Unit) => (job, true)) fun _ => ()).1

/-- One of the first two calls returns the second of them. -/
theorem roundRobin_fair_two :
    ∃! j, j < 2 ∧ ((twoJobs (0 + j)).scheduleRoundRobin (fun job (_ : Unit) => (job, true))
      fun _ => ()).2 = some 1 := by
  have hcalls : Calls (fun job (_ : Unit) => (job, true)) (fun _ _ => ()) twoJobs
      (fun n => ((twoJobs n).scheduleRoundRobin (fun job (_ : Unit) => (job, true)) fun _ => ()).2) :=
    ⟨fun _ => rfl, fun _ => rfl⟩
  exact ((roundRobin_fair _).2 _ _ _ hcalls 0).2.2 (fun _ _ _ _ => rfl) 1 (by decide)

end JobList

end Scamp
