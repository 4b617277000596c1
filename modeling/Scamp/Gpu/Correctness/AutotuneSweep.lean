import Mathlib.Order.WithBot
import Scamp.Gpu.Autotune
import Scamp.Lib.Checked
import Scamp.Lib.FirstLeast

/-!
# `Gpu.Correctness.AutotuneSweep` — the winners of a sweep

The loop over the trials of a target keeps every strictly smaller time, so it ends with the first trial whose
time is smallest, `-inf` included (`sweepTarget_eq`). That is the first one with the smallest finite time unless a
trial of `-inf` wins (`chosen_eq_fastest_iff`). The sweep stores a winner for each enabled target, over the entries
it started with (`sweep_eq`, `foldl_storeChosen`).
-/

namespace Scamp

namespace Sample
variable {K : Type}

/-- The place of a time among the others: NaN is as slow as infinity. -/
def rank : Sample K → WithBot (WithTop K)
  | nan | posInf => ⊤
  | negInf => ⊥
  | finite x => ((x : WithTop K) : WithBot (WithTop K))

/-- A finite time, or infinity. -/
def finiteTime : Sample K → WithTop K
  | finite x => x
  | _ => ⊤

/-- A time of `-inf`. -/
def isNegInf : Sample K → Bool
  | negInf => true
  | _ => false

theorem isNegInf_iff {x : Sample K} : x.isNegInf = true ↔ x.rank = ⊥ := by
  cases x <;> simp [isNegInf, rank, ← WithBot.coe_top]

/-- Any other time has the place of its finite value. -/
theorem rank_of_not_negInf {x : Sample K} (h : x.isNegInf = false) : x.rank = (x.finiteTime : WithBot (WithTop K)) := by
  cases x with
  | negInf => exact Bool.noConfusion h
  | _ => rfl

variable [LinearOrder K]

theorem posInf_less (y : Sample K) : (posInf : Sample K).less y = false := by
  cases y <;> rfl

theorem less_posInf (x : Sample K) : x.less .posInf = true ↔ x.rank < ⊤ := by
  cases x <;> simp [less, rank, ← WithBot.coe_top]

/-- Times are compared by their places, as long as the second one is not NaN. -/
theorem less_iff_rank (x : Sample K) {y : Sample K} (hy : y.rank < ⊤) : x.less y = true ↔ x.rank < y.rank := by
  cases y with
  | nan => exact absurd hy (lt_irrefl _)
  | posInf => exact absurd hy (lt_irrefl _)
  | negInf => cases x <;> simp [less, rank]
  | finite y => cases x <;> simp [less, rank, ← WithBot.coe_top]

end Sample

namespace Autotune

open Lib

variable {K : Type} [LinearOrder K]

/-! ## The winner of a target -/

/-- The time of a trial. One that throws is as slow as infinity. -/
def BenchOutcome.time : BenchOutcome K → Sample K
  | .seconds s => s
  | _ => .posInf

/-- The configuration a target should get: of the first trial with the smallest finite time, or the default. -/
def fastest (getenv : String → Option String) (bench : BenchmarkFn K) (t : SCAMPProfileType × SCAMPPrecisionType) :
    KernelConfig :=
  let finiteTime := fun cfg => (bench t.1 t.2 cfg).time.finiteTime
  (((trials getenv t.2).filter fun cfg => finiteTime cfg < ⊤).argmin finiteTime).getD
    (getDefaultKernelConfig t.1 t.2)

/-- The configuration it gets: of the first trial with the smallest time. -/
def chosen (getenv : String → Option String) (bench : BenchmarkFn K) (t : SCAMPProfileType × SCAMPPrecisionType) :
    KernelConfig :=
  let rank := fun cfg => (bench t.1 t.2 cfg).time.rank
  (((trials getenv t.2).filter fun cfg => rank cfg < ⊤).argmin rank).getD (getDefaultKernelConfig t.1 t.2)

/-- No trial throws an exception that the sweep does not catch. -/
def NoOtherException (getenv : String → Option String) (bench : BenchmarkFn K) : Prop :=
  ∀ t ∈ kAutotuneTargets, autotuneTargetEnabled getenv t.2 = true →
    ∀ cfg ∈ trials getenv t.2, bench t.1 t.2 cfg ≠ .otherException

/-- The first trial of `-inf`, if there is one, is of the configuration that should win. -/
def NoNegInfWin (getenv : String → Option String) (bench : BenchmarkFn K)
    (t : SCAMPProfileType × SCAMPPrecisionType) : Prop :=
  ∀ cfg, (trials getenv t.2).find? (fun cfg => (bench t.1 t.2 cfg).time.isNegInf) = some cfg →
    cfg = getDefaultKernelConfig t.1 t.2 ∧ ∀ c ∈ trials getenv t.2, (bench t.1 t.2 c).time.finiteTime = ⊤

variable {getenv : String → Option String} {bench : BenchmarkFn K} {t : SCAMPProfileType × SCAMPPrecisionType}

/-- **The trials of a target**, when all their exceptions are caught, end with the first of the smallest time. -/
theorem sweepTarget_eq (h : ∀ cfg ∈ trials getenv t.2, bench t.1 t.2 cfg ≠ .otherException) :
    (sweepTarget getenv bench t).map Prod.snd = some (chosen getenv bench t) := by
  have hstep : ∀ (best : Sample K × KernelConfig), ∀ cfg ∈ trials getenv t.2, tryTrial (bench t.1 t.2) best cfg =
      some (if (bench t.1 t.2 cfg).time.less best.1 then ((bench t.1 t.2 cfg).time, cfg) else best) := by
    intro best cfg hcfg
    unfold tryTrial
    cases hout : bench t.1 t.2 cfg with
    | seconds s => rfl
    | stdException =>
        have hno : ¬(BenchOutcome.stdException : BenchOutcome K).time.less best.1 = true := by
          rw [show (BenchOutcome.stdException : BenchOutcome K).time = .posInf from rfl, Sample.posInf_less]
          exact Bool.false_ne_true
        rw [if_neg hno]
    | otherException => exact absurd hout (h cfg hcfg)
  unfold sweepTarget chosen
  dsimp only
  rw [foldlM_eq_some hstep, Option.map_some, Option.some.injEq, foldl_better Sample.less_posInf
    fun x y hy => Sample.less_iff_rank x hy]
  cases ((trials getenv t.2).filter fun cfg => (bench t.1 t.2 cfg).time.rank < ⊤).argmin
      fun cfg => (bench t.1 t.2 cfg).time.rank with
  | none => rfl
  | some cfg => rfl

/-- Without a time of `-inf` the winner is the fastest trial. -/
theorem chosen_eq_fastest (h : ∀ cfg ∈ trials getenv t.2, (bench t.1 t.2 cfg).time.isNegInf = false) :
    chosen getenv bench t = fastest getenv bench t := by
  unfold chosen fastest
  dsimp only
  have hrank : ∀ cfg ∈ trials getenv t.2, (bench t.1 t.2 cfg).time.rank =
      ((bench t.1 t.2 cfg).time.finiteTime : WithBot (WithTop K)) := fun cfg hcfg =>
    Sample.rank_of_not_negInf (h cfg hcfg)
  have hfilter : ((trials getenv t.2).filter fun cfg => (bench t.1 t.2 cfg).time.rank < ⊤) =
      (trials getenv t.2).filter fun cfg => (bench t.1 t.2 cfg).time.finiteTime < ⊤ := by
    refine List.filter_congr fun cfg hcfg => ?_
    rw [hrank cfg hcfg, ← WithBot.coe_top]
    exact decide_eq_decide.mpr WithBot.coe_lt_coe
  rw [hfilter]
  congr 1
  refine argmin_congr fun a ha b hb => ?_
  rw [hrank a (List.mem_of_mem_filter ha), hrank b (List.mem_of_mem_filter hb)]
  exact WithBot.coe_lt_coe

/-- The first trial of `-inf` wins. -/
theorem chosen_of_negInf {cfg : KernelConfig}
    (h : (trials getenv t.2).find? (fun cfg => (bench t.1 t.2 cfg).time.isNegInf) = some cfg) :
    chosen getenv bench t = cfg := by
  have hfind : ((trials getenv t.2).filter fun cfg => (bench t.1 t.2 cfg).time.rank < ⊤).find?
      (fun cfg => (bench t.1 t.2 cfg).time.isNegInf) = some cfg := by
    rw [List.find?_filter, ← h]
    congr 1
    funext c
    cases hc : (bench t.1 t.2 c).time.isNegInf with
    | true =>
        rw [Sample.isNegInf_iff.mp hc]
        rfl
    | false => exact decide_eq_false fun h => Bool.noConfusion h.2
  unfold chosen
  dsimp only
  rw [argmin_of_find? (fun _ => Sample.isNegInf_iff) hfind]
  rfl

/-- **The winner is the fastest trial** exactly when no trial of `-inf` wins. -/
theorem chosen_eq_fastest_iff : chosen getenv bench t = fastest getenv bench t ↔ NoNegInfWin getenv bench t := by
  cases hfind : (trials getenv t.2).find? fun cfg => (bench t.1 t.2 cfg).time.isNegInf with
  | none =>
      refine iff_of_true (chosen_eq_fastest fun cfg hcfg => ?_) fun cfg hcfg => ?_
      · exact Bool.eq_false_of_not_eq_true (List.find?_eq_none.mp hfind cfg hcfg)
      · rw [hfind] at hcfg
        cases hcfg
  | some cfg =>
      rw [chosen_of_negInf hfind]
      unfold fastest
      dsimp only
      cases hfast : ((trials getenv t.2).filter fun c => (bench t.1 t.2 c).time.finiteTime < ⊤).argmin
          fun c => (bench t.1 t.2 c).time.finiteTime with
      | none =>
          have hslow : ∀ c ∈ trials getenv t.2, (bench t.1 t.2 c).time.finiteTime = ⊤ := by
            intro c hc
            have hnot := List.filter_eq_nil_iff.mp (List.argmin_eq_none.mp hfast) c hc
            simpa using hnot
          constructor
          · intro heq c hc
            rw [hfind] at hc
            cases hc
            exact ⟨heq, hslow⟩
          · exact fun hwin => (hwin cfg hfind).1
      | some c =>
          have hc := List.mem_filter.mp (List.argmin_mem hfast)
          have hfinite : (bench t.1 t.2 c).time.finiteTime < ⊤ := by simpa using hc.2
          constructor
          · rintro rfl
            -- a time of `-inf` is not finite
            have hneg := List.find?_some hfind
            cases htime : (bench t.1 t.2 cfg).time with
            | negInf =>
                rw [htime] at hfinite
                exact absurd hfinite (lt_irrefl _)
            | _ =>
                rw [htime] at hneg
                exact Bool.noConfusion hneg
          · intro hwin
            exact absurd hfinite (by rw [(hwin cfg hfind).2 c hc.1]; exact lt_irrefl _)

/-! ## The sweep over the targets -/

/-- The entries once the sweep has stored a configuration for each enabled target. -/
def tuned (getenv : String → Option String) (config : SCAMPProfileType × SCAMPPrecisionType → KernelConfig)
    (deviceKey : List Char) (targets : List (SCAMPProfileType × SCAMPPrecisionType)) (entries : Entries) : Entries :=
  fun k =>
    if k.deviceKey = deviceKey ∧ (k.profileType, k.precision) ∈ targets ∧
        autotuneTargetEnabled getenv k.precision = true then
      some (config (k.profileType, k.precision))
    else entries k

/-- One target of a sweep whose exceptions are all caught. -/
def storeChosen (getenv : String → Option String) (bench : BenchmarkFn K) (deviceKey : List Char)
    (s : AutotuneCache × KernelConfig) (t : SCAMPProfileType × SCAMPPrecisionType) : AutotuneCache × KernelConfig :=
  if !autotuneTargetEnabled getenv t.2 then s
  else (s.1.store deviceKey t.1 t.2 (chosen getenv bench t), chosen getenv bench t)

theorem storeChosen_enabled {deviceKey : List Char} {s : AutotuneCache × KernelConfig}
    (h : autotuneTargetEnabled getenv t.2 = true) : storeChosen getenv bench deviceKey s t =
      (s.1.store deviceKey t.1 t.2 (chosen getenv bench t), chosen getenv bench t) := by
  unfold storeChosen
  rw [if_neg (by simp [h])]

theorem storeChosen_disabled {deviceKey : List Char} {s : AutotuneCache × KernelConfig}
    (h : autotuneTargetEnabled getenv t.2 = false) : storeChosen getenv bench deviceKey s t = s := by
  unfold storeChosen
  rw [if_pos (by simp [h])]

/-- Another target changes the entry under its own key only. -/
theorem tuned_append {config : SCAMPProfileType × SCAMPPrecisionType → KernelConfig} {deviceKey : List Char}
    {targets : List (SCAMPProfileType × SCAMPPrecisionType)} {entries : Entries} {k : Key}
    (h : autotuneTargetEnabled getenv t.2 = true → k ≠ ⟨deviceKey, t.1, t.2⟩) :
    tuned getenv config deviceKey (targets ++ [t]) entries k = tuned getenv config deviceKey targets entries k := by
  unfold tuned
  refine if_congr ?_ rfl rfl
  rw [List.mem_append, List.mem_singleton]
  constructor
  · rintro ⟨hkey, hmem | hlast, hon⟩
    · exact ⟨hkey, hmem, hon⟩
    · rw [← hlast] at h
      refine absurd ?_ (h hon)
      rw [← hkey]
  · exact fun h => ⟨h.1, Or.inl h.2.1, h.2.2⟩

/-- **The targets one after another**: the path stays, and each enabled target has its entry. -/
theorem foldl_storeChosen (deviceKey : List Char) (targets : List (SCAMPProfileType × SCAMPPrecisionType))
    (s : AutotuneCache × KernelConfig) :
    (targets.foldl (storeChosen getenv bench deviceKey) s).1 =
      ⟨s.1.path, tuned getenv (chosen getenv bench) deviceKey targets s.1.entries⟩ := by
  induction targets using List.reverseRecOn with
  | nil =>
      have hsame : tuned getenv (chosen getenv bench) deviceKey [] s.1.entries = s.1.entries := by
        funext k
        exact if_neg fun h => List.not_mem_nil h.2.1
      rw [hsame]
      rfl
  | append_singleton targets t ih =>
      rw [List.foldl_append, List.foldl_cons, List.foldl_nil]
      cases henabled : autotuneTargetEnabled getenv t.2 with
      | false =>
          rw [storeChosen_disabled henabled, ih]
          congr 1
          funext k
          refine (tuned_append fun hon => ?_).symm
          rw [henabled] at hon
          exact Bool.noConfusion hon
      | true =>
          rw [storeChosen_enabled henabled]
          unfold AutotuneCache.store
          dsimp only
          rw [ih]
          congr 1
          funext k
          by_cases hk : k = ⟨deviceKey, t.1, t.2⟩
          · subst hk
            rw [Function.update_self]
            refine (if_pos ⟨rfl, ?_, henabled⟩).symm
            exact List.mem_append_right _ (List.mem_singleton_self _)
          · rw [Function.update_of_ne hk]
            exact (tuned_append fun _ => hk).symm

/-- **The sweep**, when all exceptions are caught. -/
theorem sweep_eq (deviceKey : List Char) (h : NoOtherException getenv bench) (s : AutotuneCache × KernelConfig) :
    kAutotuneTargets.foldlM (sweepStep getenv bench deviceKey) s =
      some (kAutotuneTargets.foldl (storeChosen getenv bench deviceKey) s) := by
  refine foldlM_eq_some (fun s t ht => ?_) s
  unfold sweepStep
  cases henabled : autotuneTargetEnabled getenv t.2 with
  | false =>
      rw [storeChosen_disabled henabled]
      rfl
  | true =>
      obtain ⟨best, hbest, hcfg⟩ := Option.map_eq_some_iff.mp (sweepTarget_eq (h t ht henabled))
      rw [storeChosen_enabled henabled, if_neg (by decide), hbest, ← hcfg]

/-- An exception that is not caught ends the sweep. -/
theorem sweep_none (deviceKey : List Char) (h : ¬NoOtherException getenv bench) (s : AutotuneCache × KernelConfig) :
    kAutotuneTargets.foldlM (sweepStep getenv bench deviceKey) s = none := by
  unfold NoOtherException at h
  simp only [not_forall, not_not] at h
  obtain ⟨t, ht, henabled, cfg, hcfg, hthrows⟩ := h
  refine foldlM_eq_none ht (fun s => ?_) s
  have htarget : sweepTarget getenv bench t = none :=
    foldlM_eq_none hcfg (fun best => by unfold tryTrial; rw [hthrows]) _
  unfold sweepStep
  rw [henabled, if_neg (by decide), htarget]

end Autotune

end Scamp
