import Scamp.Distributed.Correctness.Lifecycle
import Scamp.Distributed.Correctness.Merges
import Mathlib.Tactic.Zify

/-!
# `Distributed.Correctness.Timeouts` — the time a worker gets

`fetch_ready_tile` divides the square of the tile size by the throughput that the worker reports. The square
is taken modulo `2 ^ 64`, the quotient is converted to `int64_t` and the timeout is kept as an `int`.
`tileTimeout_eq_iff` finds the sizes and throughputs for which this is the quotient itself, or the largest
`int` when the quotient is larger; `timeoutExact_iff` says so of the calls of a job.
-/

namespace Scamp

open Lib

/-! ## Arithmetic -/

/-- What the timeout should be before it is stored: at least `MIN_TIMEOUT_SECONDS`, rounded down. -/
def timeoutSeconds (size : ℕ) (hasB : Bool) (throughput : ℤ) : ℤ :=
  let timeout := Int.fdiv (size * size) throughput
  max minTimeoutSeconds (if hasB then timeout else Int.fdiv timeout 2)

/-- The quotient of `product` by a throughput, half of it for a self-join. -/
def timeShare (product : ℕ) (hasB : Bool) (throughput : ℕ) : ℕ :=
  if hasB then product / throughput else product / throughput / 2

/-- **The timeouts that come out right.** -/
def TimeoutFits (size : ℕ) (hasB : Bool) (throughput : ℤ) : Prop :=
  throughput ≠ 0 ∧
    (throughput < 0 ∨
      timeoutSeconds size hasB throughput = minTimeoutSeconds ∨
      (timeoutSeconds size hasB throughput ≤ intMax ∧ size * size < 2 ^ 64) ∨
      -- the low words of a quotient that is too large happen to be those of `INT_MAX`
      (intMax < timeoutSeconds size hasB throughput ∧ size * size % 2 ^ 64 / throughput.toNat < 2 ^ 63 ∧
        timeShare (size * size % 2 ^ 64) hasB throughput.toNat % 2 ^ 32 = 2 ^ 31 - 1))

theorem int32_eq_intMax_iff {x : ℕ} : int32 (max minTimeoutSeconds (x : ℤ)) = intMax ↔ x % 2 ^ 32 = 2 ^ 31 - 1 := by
  unfold int32 minTimeoutSeconds intMax Int.bmod
  norm_num
  split <;> omega

theorem int32_of_le {x : ℤ} (hle : x ≤ intMax) : int32 (max minTimeoutSeconds x) = max minTimeoutSeconds x := by
  unfold intMax at hle
  unfold int32 minTimeoutSeconds
  exact Int.bmod_eq_of_le (by norm_num) (by norm_num; omega)

/-- The share of a positive throughput. -/
theorem timeoutSeconds_eq (size : ℕ) (hasB : Bool) (n : ℕ) :
    timeoutSeconds size hasB n = max minTimeoutSeconds (timeShare (size * size) hasB n : ℤ) := by
  have hquot : Int.fdiv (size * size) n = ((size * size / n : ℕ) : ℤ) := by
    rw [Int.fdiv_eq_ediv_of_nonneg _ (Int.natCast_nonneg n)]
    push_cast
    rfl
  have hhalf : Int.fdiv ((size * size / n : ℕ) : ℤ) 2 = ((size * size / n / 2 : ℕ) : ℤ) := by
    rw [Int.fdiv_eq_ediv_of_nonneg _ (by norm_num)]
    push_cast
    rfl
  unfold timeoutSeconds timeShare
  rw [hquot]
  cases hasB with
  | true => simp
  | false => simp only [Bool.false_eq_true, if_false, hhalf]

/-- A share of more is more. -/
theorem timeShare_mono {p p' : ℕ} (h : p ≤ p') (hasB : Bool) (n : ℕ) : timeShare p hasB n ≤ timeShare p' hasB n := by
  have hle : p / n ≤ p' / n := Nat.div_le_div_right h
  unfold timeShare
  split
  · exact hle
  · exact Nat.div_le_div_right hle

/-- A square that does not fit loses at least one second. -/
theorem timeShare_lt {p : ℕ} (hlarge : 2 ^ 64 ≤ p) (hasB : Bool) {n : ℕ} (hn : 0 < n) (hn' : n < 2 ^ 63) :
    timeShare (p % 2 ^ 64) hasB n < timeShare p hasB n := by
  have hle : p % 2 ^ 64 + 2 * n ≤ p := by omega
  have htwo : p % 2 ^ 64 / n + 2 ≤ p / n := by
    rw [← Nat.add_mul_div_right _ _ hn]
    exact Nat.div_le_div_right hle
  unfold timeShare
  split <;> omega

/-- The value that is stored, for a positive throughput. -/
theorem tileTimeout_natCast {K : Type} (job : Job K) (hasB : Bool) {n : ℕ} (hn' : n < 2 ^ 63) :
    job.tileTimeout hasB n = int32 (max minTimeoutSeconds
      (if job.distributedTileSize * job.distributedTileSize % 2 ^ 64 / n < 2 ^ 63 then
        (timeShare (job.distributedTileSize * job.distributedTileSize % 2 ^ 64) hasB n : ℤ) else 0)) := by
  have hproduct : uint64 (job.distributedTileSize * job.distributedTileSize) =
      job.distributedTileSize * job.distributedTileSize % 2 ^ 64 := by
    unfold uint64
    omega
  unfold Job.tileTimeout
  rw [hproduct, uint64_natCast (by omega)]
  obtain ⟨q, hq⟩ : ∃ q, q = job.distributedTileSize * job.distributedTileSize % 2 ^ 64 / n := ⟨_, rfl⟩
  have hqlt : q < 2 ^ 64 := by
    rw [hq]
    exact lt_of_le_of_lt (Nat.div_le_self _ _) (Nat.mod_lt _ (by norm_num))
  unfold timeShare
  rw [← hq]
  dsimp only
  congr 1
  by_cases hsmall : q < 2 ^ 63
  · rw [if_pos hsmall, int64_of_range (by omega) (by omega)]
    cases hasB with
    | true => simp
    | false =>
        rw [if_neg (by decide), if_neg (by decide), Int.tdiv_eq_ediv_of_nonneg (Int.natCast_nonneg q)]
        push_cast
        rfl
  · -- the conversion to `int64_t` makes it negative
    have hneg : int64 q < 0 := by
      unfold int64 Int.bmod
      norm_num
      split <;> omega
    have hle : (if hasB = true then int64 q else (int64 q).tdiv 2) ≤ 0 := by
      split
      · exact hneg.le
      · rw [← neg_neg (int64 q), Int.neg_tdiv]
        exact neg_nonpos_of_nonneg (Int.tdiv_nonneg (by omega) (by norm_num))
    rw [if_neg hsmall]
    unfold minTimeoutSeconds
    omega

/-- A negative throughput leaves the least timeout. -/
theorem timeoutSeconds_of_neg (size : ℕ) (hasB : Bool) {throughput : ℤ} (hneg : throughput < 0) :
    timeoutSeconds size hasB throughput = minTimeoutSeconds := by
  have hquot : Int.fdiv (size * size) throughput ≤ 0 :=
    Int.fdiv_nonpos_of_nonneg_of_nonpos (by positivity) hneg.le
  have hhalf : Int.fdiv (Int.fdiv (size * size) throughput) 2 ≤ 0 := by
    rw [Int.fdiv_eq_ediv_of_nonneg _ (by norm_num)]
    omega
  unfold timeoutSeconds minTimeoutSeconds
  dsimp only
  split <;> omega

/-- A negative throughput becomes a large divisor. -/
theorem tileTimeout_of_neg {K : Type} (job : Job K) (hasB : Bool) {throughput : ℤ} (hneg : throughput < 0)
    (hge : -2 ^ 63 ≤ throughput) : job.tileTimeout hasB throughput = minTimeoutSeconds := by
  have hdivisor : 2 ^ 63 ≤ uint64 throughput := by
    unfold uint64
    omega
  have hproduct : uint64 (job.distributedTileSize * job.distributedTileSize) < 2 ^ 64 := by
    unfold uint64
    omega
  obtain ⟨q, hq⟩ : ∃ q, q = uint64 (job.distributedTileSize * job.distributedTileSize) / uint64 throughput := ⟨_, rfl⟩
  have hqle : q < 2 := by
    rw [hq, Nat.div_lt_iff_lt_mul (by omega)]
    omega
  unfold Job.tileTimeout
  rw [← hq, int64_of_range (by omega) (by omega)]
  have hhalf : (q : ℤ).tdiv 2 = 0 := by
    rw [Int.tdiv_eq_ediv_of_nonneg (Int.natCast_nonneg q)]
    omega
  have hmax : max minTimeoutSeconds (if hasB then (q : ℤ) else (q : ℤ).tdiv 2) = minTimeoutSeconds := by
    rw [hhalf]
    unfold minTimeoutSeconds
    split <;> omega
  dsimp only
  rw [hmax]
  rfl

/-- **When the timeout that is stored is the one that is meant**, for a throughput that is not `0`. -/
theorem tileTimeout_eq_iff {K : Type} (job : Job K) (hasB : Bool) {throughput : ℤ} (hne : throughput ≠ 0)
    (hge : -2 ^ 63 ≤ throughput) (hlt : throughput < 2 ^ 63) :
    job.tileTimeout hasB throughput = min intMax (timeoutSeconds job.distributedTileSize hasB throughput) ↔
      TimeoutFits job.distributedTileSize hasB throughput := by
  rcases lt_or_gt_of_ne hne with hneg | hpos
  · rw [tileTimeout_of_neg job hasB hneg hge, timeoutSeconds_of_neg _ hasB hneg]
    exact iff_of_true rfl ⟨hne, Or.inl hneg⟩
  · obtain ⟨n, rfl⟩ := Int.eq_ofNat_of_zero_le hpos.le
    have hn : 0 < n := by exact_mod_cast hpos
    have hn' : n < 2 ^ 63 := by exact_mod_cast hlt
    unfold TimeoutFits
    rw [tileTimeout_natCast job hasB hn', timeoutSeconds_eq, Int.toNat_natCast]
    obtain ⟨p, hp⟩ : ∃ p, p = job.distributedTileSize * job.distributedTileSize := ⟨_, rfl⟩
    rw [← hp]
    obtain ⟨share, hshare⟩ : ∃ share, share = timeShare p hasB n := ⟨_, rfl⟩
    obtain ⟨stored, hstored⟩ : ∃ stored, stored = timeShare (p % 2 ^ 64) hasB n := ⟨_, rfl⟩
    have hle : stored ≤ share := by
      rw [hshare, hstored]
      exact timeShare_mono (Nat.mod_le p _) hasB n
    rw [← hshare, ← hstored]
    have hfits : p < 2 ^ 64 → stored = share := fun h => by rw [hstored, hshare, Nat.mod_eq_of_lt h]
    have hlost : ¬p < 2 ^ 64 → stored < share := by
      intro h
      rw [hstored, hshare]
      exact timeShare_lt (Nat.not_lt.mp h) hasB hn hn'
    have hne' : (n : ℤ) ≠ 0 ∧ ¬(n : ℤ) < 0 := by omega
    by_cases hsmall : p % 2 ^ 64 / n < 2 ^ 63
    · rw [if_pos hsmall]
      by_cases hmax : (share : ℤ) ≤ intMax
      · -- all fits into an `int`, and only the square can have wrapped
        rw [int32_of_le (by omega)]
        unfold minTimeoutSeconds intMax at *
        by_cases hp64 : p < 2 ^ 64
        · have := hfits hp64
          omega
        · have := hlost hp64
          omega
      · have hmin : min intMax (max minTimeoutSeconds (share : ℤ)) = intMax := by omega
        rw [hmin, int32_eq_intMax_iff]
        unfold minTimeoutSeconds intMax at *
        omega
    · -- a negative quotient: the least timeout in place of the largest
      rw [if_neg hsmall]
      have hlarge : 2 ^ 62 ≤ stored := by
        rw [hstored]
        unfold timeShare
        split <;> omega
      have hleast : int32 (max minTimeoutSeconds 0) = minTimeoutSeconds := rfl
      rw [hleast]
      unfold minTimeoutSeconds intMax at *
      omega

/-! ## Calls -/

section
variable {K : Type}

/-- The tile that `fetch_ready_tile` takes from the queue. -/
def Job.next (job : Job K) (order : List ℕ) (now : ℤ) : Option ℕ :=
  if job.status ≠ .running then none
  else if job.readyQueue.isEmpty then
    let (job, failed) := job.cleanupFailedTiles now order
    if failed ∨ job.readyQueue.isEmpty then none else job.readyQueue.head?
  else job.readyQueue.head?

theorem uint64_eq_zero_iff {x : ℤ} (hge : -2 ^ 63 ≤ x) (hlt : x < 2 ^ 63) : uint64 x = 0 ↔ x = 0 := by
  unfold uint64
  omega

theorem cleanup_timeout (now : ℤ) (order : List ℕ) (job : Job K) (id : ℕ) :
    ((job.cleanupFailedTiles now order).1.tiles id).timeout = (job.tiles id).timeout := by
  induction order generalizing job with
  | nil => rfl
  | cons k order ih =>
      unfold Job.cleanupFailedTiles
      split
      · split
        · rfl
        · rw [ih]
          by_cases hid : id = k
          · subst hid
            simp [Job.retryTile, Job.setTile]
          · simp [Job.retryTile, Job.setTile, hid]
      · exact ih job

section
variable [Field K]

/-- Handing out the first tile of the queue stores its timeout, and leaves those of the others. -/
theorem handOut_timeout {job : Job K} {id : ℕ} {rest : List ℕ} (now : ℤ) {throughput : ℤ}
    (hqueue : job.readyQueue = id :: rest) (hthroughput : uint64 throughput ≠ 0) :
    ∃ job', job.handOut now throughput = some (job', some (job.message id)) ∧
      (job'.tiles id).timeout = job.tileTimeout (job.message id).hasB throughput ∧
      ∀ k ≠ id, (job'.tiles k).timeout = (job.tiles k).timeout := by
  unfold Job.handOut
  rw [hqueue]
  dsimp only
  rw [if_neg hthroughput]
  refine ⟨_, rfl, ?_, fun k hk => ?_⟩
  · simp [Job.setTile]
    rfl
  · simp [Job.setTile, hk]

variable {job : Job K} {order : List ℕ} {now throughput : ℤ}

variable (now throughput) in
/-- **What `fetch_ready_tile` does with the timeout**: nothing when it hands no tile out; else it divides by
    the throughput and stores the result in the tile. -/
theorem fetch_timeout (horder : order.Perm (List.range job.tileCounter)) :
    (job.next order now = none → ∃ job', job.fetchReadyTile order now throughput = some (job', none) ∧
      ∀ k, (job'.tiles k).timeout = (job.tiles k).timeout) ∧
    ∀ id, job.next order now = some id →
      (uint64 throughput = 0 → job.fetchReadyTile order now throughput = none) ∧
      (uint64 throughput ≠ 0 → ∃ job', job.fetchReadyTile order now throughput = some (job', some (job.message id)) ∧
        (job'.tiles id).timeout = job.tileTimeout (job.message id).hasB throughput ∧
        ∀ k ≠ id, (job'.tiles k).timeout = (job.tiles k).timeout) := by
  unfold Job.next Job.fetchReadyTile
  by_cases hstatus : job.status = .running
  · rw [if_neg (not_not.mpr hstatus), if_neg (not_not.mpr hstatus)]
    cases hqueue : job.readyQueue with
    | cons id rest =>
        refine ⟨by simp, fun k hk => ?_⟩
        obtain rfl : id = k := by simpa using hk
        refine ⟨fun hzero => ?_, fun hthroughput => ?_⟩
        · simp [Job.handOut, hqueue, hzero]
        · simpa using handOut_timeout now hqueue hthroughput
    | nil =>
        -- an empty queue is filled again first, which changes no message and no timeout
        have hnodup : order.Nodup := horder.nodup_iff.mpr List.nodup_range
        have hmem : ∀ id ∈ order, id < job.tileCounter ∧ id ∉ job.readyQueue := fun id hid =>
          ⟨List.mem_range.mp (horder.subset hid), hqueue ▸ List.not_mem_nil⟩
        have hsame : SameTiles job (job.cleanupFailedTiles now order).1 :=
          (cleanup_match (R := fun _ _ => True) (F := fun _ => True) now order job hnodup hmem hstatus).2
        have htimeout := cleanup_timeout now order job
        obtain ⟨cleaned, hcleaned⟩ : ∃ cleaned, cleaned = job.cleanupFailedTiles now order := ⟨_, rfl⟩
        rw [← hcleaned] at hsame htimeout
        simp only [List.isEmpty_nil, if_true, ← hcleaned]
        by_cases hnone : cleaned.2 = true ∨ cleaned.1.readyQueue.isEmpty = true
        · rw [if_pos hnone, if_pos hnone]
          exact ⟨fun _ => ⟨cleaned.1, rfl, htimeout⟩, by simp⟩
        · rw [if_neg hnone, if_neg hnone]
          cases hqueue' : cleaned.1.readyQueue with
          | nil => exact absurd (Or.inr (by simp [hqueue'])) hnone
          | cons id rest =>
              refine ⟨by simp, fun k hk => ?_⟩
              obtain rfl : id = k := by simpa using hk
              refine ⟨fun hzero => ?_, fun hthroughput => ?_⟩
              · simp [Job.handOut, hqueue', hzero]
              · obtain ⟨job', hout, hstored, hothers⟩ := handOut_timeout now hqueue' hthroughput
                rw [hsame.message] at hout hstored
                refine ⟨job', hout, ?_, fun k hk => (hothers k hk).trans (htimeout k)⟩
                rw [hstored]
                unfold Job.tileTimeout
                rw [hsame.size]
  · rw [if_pos hstatus, if_pos hstatus]
    exact ⟨fun _ => ⟨job, rfl, fun _ => rfl⟩, by simp⟩

/-! ## Runs -/

section
variable [LinearOrder K]

omit [LinearOrder K] in
/-- The message of a tile says which tile it is for. -/
theorem message_tileId (job : Job K) (id : ℕ) : (job.message id).tileId = (job.tiles id).tileId := rfl

/-- **A timeout stays** until the tile is handed out again. -/
theorem call_timeout {P : Job K → Call K → Prop} {job job' : Job K} {c : Call K × Reply K}
    (hids : ∀ id, (job.tiles id).tileId = id) (h : CallStep P job c job') {id : ℕ}
    (hnot : .handedOut id ∉ events c) : (job'.tiles id).timeout = (job.tiles id).timeout := by
  obtain ⟨call, reply⟩ := c
  obtain ⟨horder, -, hcall⟩ := h
  cases call with
  | checkTimeTile clock =>
      obtain ⟨rfl, -⟩ := Prod.mk.inj (Option.some.inj hcall)
      unfold Job.checkTimeTile
      dsimp only
      split <;> rfl
  | isDone =>
      obtain ⟨rfl, -⟩ := Prod.mk.inj (Option.some.inj hcall)
      unfold Job.isDone
      split
      · rfl
      · split <;> rfl
  | setTileFailed tileId clock =>
      obtain ⟨rfl, -⟩ := Prod.mk.inj (Option.some.inj hcall)
      unfold Job.setTileFailed Job.setTile
      split
      · by_cases hid : id = tileId.toNat
        · subst hid
          simp
        · simp [hid]
      · rfl
  | fetchReadyTile order now throughput =>
      obtain ⟨⟨job'', args⟩, hfetch, heq⟩ := Option.map_eq_some_iff.mp hcall
      obtain ⟨rfl, rfl⟩ := Prod.mk.inj heq
      -- the one call that stores a timeout, in the tile that it hands out
      obtain ⟨hnone, hsome⟩ := fetch_timeout now throughput horder
      cases hnext : job.next order now with
      | none =>
          obtain ⟨after, hafter, htimeout⟩ := hnone hnext
          obtain ⟨rfl, -⟩ := Prod.mk.inj (Option.some.inj (hfetch.symm.trans hafter))
          exact htimeout id
      | some k =>
          obtain ⟨hzero, hthroughput⟩ := hsome k hnext
          by_cases h0 : uint64 throughput = 0
          · rw [hzero h0] at hfetch
            cases hfetch
          · obtain ⟨after, hafter, -, hothers⟩ := hthroughput h0
            obtain ⟨rfl, rfl⟩ := Prod.mk.inj (Option.some.inj (hfetch.symm.trans hafter))
            refine hothers id fun hk => hnot ?_
            simp [events, message_tileId, hids, hk]
  | combineProfile request now =>
      obtain ⟨⟨job'', merged⟩, hcombine, heq⟩ := Option.map_eq_some_iff.mp hcall
      obtain ⟨rfl, rfl⟩ := Prod.mk.inj heq
      rcases combine_cases hcombine with ⟨-, rfl⟩ | ⟨-, k, -, -, -, jobArgs, -, rfl⟩
      · rfl
      · by_cases hid : id = k
        · subst hid
          simp [Job.setTile]
        · simp [Job.setTile, hid]
  | hasWork order now =>
      obtain ⟨rfl, -⟩ := Prod.mk.inj (Option.some.inj hcall)
      unfold Job.hasWork
      split
      · split
        · exact cleanup_timeout now order job id
        · rfl
      · rfl

theorem run_timeout {start job : Job K} {trace : List (Call K × Reply K)} (hids : ∀ id, (start.tiles id).tileId = id)
    (h : Job.Run (fun _ _ => True) start trace job) {id : ℕ} (hnot : .handedOut id ∉ trace.flatMap events) :
    (job.tiles id).timeout = (start.tiles id).timeout := by
  induction h with
  | nil => rfl
  | @snoc trace job c job' hrun hstep ih =>
      rw [List.flatMap_append, List.mem_append, not_or] at hnot
      have hsame := (run_refines hids (run_allowed hrun)).1
      have hcall := call_timeout (fun id => (hsame.ids id).trans (hids id)) hstep
        (by simpa using hnot.2)
      exact hcall.trans (ih hnot.1)

/-- **What `fetch_ready_tile` should do with the timeout.** It returns, and the timeout of the tile, as
    `check_time_tile` finds it until the tile is handed out again, is the time that is meant or `INT_MAX`. -/
structure TimeoutExact (job : Job K) (order : List ℕ) (now throughput : ℤ) : Prop where
  returns : ∃ reply, job.fetchReadyTile order now throughput = some reply
  stored : ∀ job' message, job.fetchReadyTile order now throughput = some (job', some message) →
    ∀ trace later, Job.Run (fun _ _ => True) job' trace later →
      .handedOut message.tileId.toNat ∉ trace.flatMap events →
      (later.tiles message.tileId.toNat).timeout =
        min intMax (timeoutSeconds job.distributedTileSize message.hasB throughput)

variable {args : SCAMPProto.SCAMPArgs K} {jobId : ℤ} {start job : Job K} {trace : List (Call K × Reply K)}

/-- **When the timeout is right.** In every state that calls reach, for every throughput: exactly when no
    tile is handed out, or the size of the tiles and the throughput fit. -/
theorem timeoutExact_iff (hcreate : Job.create args jobId = some start)
    (hrun : Job.Run (fun _ _ => True) start trace job) {order : List ℕ}
    (horder : order.Perm (List.range job.tileCounter)) (now : ℤ) {throughput : ℤ} (hge : -2 ^ 63 ≤ throughput)
    (hlt : throughput < 2 ^ 63) :
    TimeoutExact job order now throughput ↔
      ∀ id, job.next order now = some id →
        TimeoutFits job.distributedTileSize (job.message id).hasB throughput := by
  have hids := (create_start hcreate).2.1
  have hsame := (run_refines hids (run_allowed hrun)).1
  have hids' : ∀ id, (job.tiles id).tileId = id := fun id => (hsame.ids id).trans (hids id)
  obtain ⟨hnone, hsome⟩ := fetch_timeout now throughput horder
  cases hnext : job.next order now with
  | none =>
      obtain ⟨after, hafter, -⟩ := hnone hnext
      refine iff_of_true ⟨⟨_, hafter⟩, fun job' message hfetch => ?_⟩ nofun
      rw [hafter] at hfetch
      cases hfetch
  | some id =>
      obtain ⟨hzero, hthroughput⟩ := hsome id hnext
      have hforall : (∀ k, some id = some k → TimeoutFits job.distributedTileSize (job.message k).hasB throughput) ↔
          TimeoutFits job.distributedTileSize (job.message id).hasB throughput := by simp
      rw [hforall]
      by_cases h0 : throughput = 0
      · -- the division by zero
        refine iff_of_false (fun h => ?_) fun h => h.1 h0
        obtain ⟨reply, hreply⟩ := h.returns
        rw [hzero ((uint64_eq_zero_iff hge hlt).mpr h0)] at hreply
        cases hreply
      · obtain ⟨after, hafter, hstored, -⟩ := hthroughput (mt (uint64_eq_zero_iff hge hlt).mp h0)
        have hid : (job.message id).tileId.toNat = id := by simp [message_tileId, hids']
        rw [← tileTimeout_eq_iff job (job.message id).hasB h0 hge hlt, ← hstored]
        have hcall : Job.Run (fun _ _ => True) job [(.fetchReadyTile order now throughput, .work (some (job.message id)))]
            after := .single ⟨horder, trivial, by simp [Job.call, hafter]⟩
        have hafterSame := (run_refines hids' (run_allowed hcall)).1
        constructor
        · intro h
          have hnow := h.stored after _ hafter [] after .nil (by simp)
          rwa [hid] at hnow
        · intro h
          refine ⟨⟨_, hafter⟩, fun job' message hfetch trace' later hrun' hnot => ?_⟩
          obtain ⟨rfl, hmessage⟩ := Prod.mk.inj (Option.some.inj (hfetch.symm.trans hafter))
          obtain rfl := Option.some.inj hmessage
          rw [hid] at hnot ⊢
          rw [run_timeout (fun k => (hafterSame.ids k).trans (hids' k)) hrun' hnot, h]

end

theorem timeoutExact_iff_oneTile : TimeoutExact oneTileJob [0] 0 1 :=
  (timeoutExact_iff create_oneTile .nil (.refl _) 0 (by decide) (by decide)).mpr fun id hid => by
    obtain rfl : 0 = id := Option.some.inj hid
    exact ⟨by decide, Or.inr (Or.inr (Or.inl ⟨by decide, by decide⟩))⟩

/-- A request for a job with large tiles. -/
def wideTileArgs : SCAMPProto.SCAMPArgs ℚ := { oneTileArgs with distributedTileSize := 70000 }

/-- Its job. -/
def wideTileJob : Job ℚ := (Job.create wideTileArgs 0).getD (.new wideTileArgs 0)

/-- **Timeouts that are wrong.** A request without a throughput divides by zero. For large tiles and a slow
    worker the timeout is negative, and the tile fails at the next check, in the second it was handed out. -/
theorem wideTile_fails : Job.create wideTileArgs 0 = some wideTileJob ∧
    wideTileJob.fetchReadyTile [0] 0 0 = none ∧ ¬TimeoutExact wideTileJob [0] 0 0 ∧
    timeoutSeconds 70000 false 1 = 2450000000 ∧
    ∃ job message, wideTileJob.fetchReadyTile [0] 0 1 = some (job, some message) ∧
      (job.tiles 0).timeout = -1844967296 ∧ ((job.checkTimeTile fun _ => 0).tiles 0).status = .failed ∧
      ¬TimeoutExact wideTileJob [0] 0 1 := by
  have hzero : wideTileJob.fetchReadyTile [0] 0 0 = none := rfl
  have hwide : ∃ job message, wideTileJob.fetchReadyTile [0] 0 1 = some (job, some message) ∧
      (job.tiles 0).timeout = -1844967296 ∧ ((job.checkTimeTile fun _ => 0).tiles 0).status = .failed ∧
      message.tileId = 0 ∧ message.hasB = false := by
    exact ⟨_, _, rfl, by decide, by decide, rfl, rfl⟩
  obtain ⟨job, message, hfetch, htimeout, hfailed, hid, hself⟩ := hwide
  refine ⟨rfl, hzero, fun h => ?_, by decide, job, message, hfetch, htimeout, hfailed, fun h => ?_⟩
  · obtain ⟨reply, hreply⟩ := h.returns
    rw [hzero] at hreply
    cases hreply
  · have hstored := h.stored job message hfetch [] job .nil (by simp)
    rw [hid, hself] at hstored
    change (job.tiles 0).timeout = _ at hstored
    rw [htimeout] at hstored
    revert hstored
    decide

end

end

end Scamp
