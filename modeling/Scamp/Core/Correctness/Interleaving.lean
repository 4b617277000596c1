import Scamp.Core.Correctness.NearestNeighbor

/-!
# `Core.Correctness.Interleaving` — what the workers leave behind, state by state

A run is followed here together with the tiles that the workers have executed so far (`Join.Executed`).
Each tile is waiting in the queue, waiting for its seeds in the hands of one worker, or executed
(`executed_account`), so that a run executes no tile twice and a run that has returned has executed all.

For `PROFILE_TYPE_1NN_INDEX` this gives the meaning of a profile entry in every state a run can reach, not
only at its end (`workers_interleaved`): it is the initial entry, or a correlation that an executed tile has
computed together with the global position of the match. A seed that a worker has copied from the profile
carries such a global position too, but is never taken back: the merge takes over an entry only when it is
strictly better than the one it was seeded with, and then its position is local to the tile.
-/

namespace Scamp

open Lib

/-! ## The tiles a run has executed -/

section
variable {K : Type} [Field K] [LinearOrder K] [HasSqrt K]

/-- The tile that a step of the worker executes: its own, once all seeds are copied. -/
def executes (w : Worker K) (act : Action) : List TilePos :=
  if w.phase = .seeding [] [] ∧ act = .advance then [w.pos] else []

/-- A run of the join, with the tiles that were executed on the way, in that order. -/
inductive Join.Executed (J : Join K) (bld : Build K) (memory : ℕ → Tile K) :
    List TilePos → OpState K → Prop
  | start : Executed J bld memory [] (J.initState memory)
  | step {tiles s i act s'} : Executed J bld memory tiles s → i < J.numThreads →
      opStep (J.operation bld) s i act = some s' →
      Executed J bld memory (tiles ++ executes (s.workers i) act) s'

variable {J : Join K} {bld : Build K} {memory : ℕ → Tile K}

theorem Join.Executed.run {tiles : List TilePos} {s : OpState K} (h : J.Executed bld memory tiles s) :
    Relation.ReflTransGen (OpStep (J.operation bld) J.numThreads) (J.initState memory) s := by
  induction h with
  | start => exact .refl
  | step _ hi hstep ih => exact ih.tail ⟨_, hi, _, hstep⟩

theorem exists_executed {s : OpState K}
    (h : Relation.ReflTransGen (OpStep (J.operation bld) J.numThreads) (J.initState memory) s) :
    ∃ tiles, J.Executed bld memory tiles s := by
  induction h with
  | refl => exact ⟨[], .start⟩
  | tail _ hstep ih =>
      obtain ⟨tiles, hrun⟩ := ih
      obtain ⟨i, hi, act, hact⟩ := hstep
      exact ⟨_, hrun.step hi hact⟩

/-- The tile a worker has popped and not executed yet. -/
def waiting (w : Worker K) : Multiset TilePos :=
  match w.phase with
  | .seeding _ _ => {w.pos}
  | _ => 0

omit [Field K] [LinearOrder K] [HasSqrt K] in
theorem waiting_le_heldA (w : Worker K) : waiting w ≤ heldA w := by
  unfold waiting heldA
  cases w.phase <;> simp

omit [Field K] [LinearOrder K] [HasSqrt K] in
theorem waiting_le_heldB (w : Worker K) : waiting w ≤ heldB w := by
  unfold waiting heldB
  cases w.phase <;> simp

omit [HasSqrt K] in
/-- **One worker's step**, what it does to the tiles that wait. -/
theorem workerStep_waiting {op : Operation K} {g g' : Shared K} {w w' : Worker K} {act : Action}
    (hstep : WorkerStep op g w act g' w') :
    (executes w act : Multiset TilePos) + (g'.workQueue + waiting w') = g.workQueue + waiting w := by
  unfold executes
  cases hstep with
  | enter hw => simp [waiting, hw]
  | look hw _ => simp [waiting, hw]
  | leave hw _ => rcases hw with hw | hw <;> simp [waiting, hw]
  | pop hw hcons =>
      simp only [waiting, hw, hcons]
      rw [if_neg (fun h => nomatch h.1), Multiset.coe_nil, zero_add, add_zero, add_comm, Multiset.singleton_add]
      rfl
  | copyA hw _ => simp [waiting, hw]
  | copyB hw _ => simp [waiting, hw]
  | run hw _ => simp [waiting, hw, add_comm]
  | runFails hw _ => simp [waiting, hw, add_comm]
  | mergeA hw _ =>
      dsimp only [waiting]
      unfold afterMerge
      split_ifs <;> simp_all
  | @mergeB last side p hw _ _ =>
      dsimp only [waiting]
      unfold afterMerge
      cases side <;> (dsimp only [Shared.setProfile]; split_ifs <;> simp_all)
  | count hw => simp [waiting, hw]

variable (htype : entryType J.info.profileType = true)
include htype

/-- **The account of the tiles**: executed, in the hands of a worker, or queued. -/
theorem executed_account [IsStrictOrderedRing K] {tiles : List TilePos} {s : OpState K}
    (h : J.Executed bld memory tiles s) :
    (tiles : Multiset TilePos) +
      (s.shared.workQueue + ∑ i ∈ Finset.range J.numThreads, waiting (s.workers i)) =
        (getTiles J.info : Multiset TilePos) := by
  induction h with
  | start =>
      have hnone : ∑ i ∈ Finset.range J.numThreads, waiting ((J.initState memory).workers i) = 0 :=
        Finset.sum_eq_zero fun _ _ => rfl
      rw [hnone, Multiset.coe_nil, zero_add, add_zero]
      rfl
  | @step tiles s i act s' hrun hi hact ih =>
      obtain ⟨g, w, rfl, hw⟩ := opStep_cases htype (stateOK_run htype hrun.run) hi hact
      rw [← Multiset.coe_add]
      exact account_step ih (workerStep_waiting hw) (sum_update hi waiting s.workers w)

/-- No tile is executed twice, and none that was not queued. -/
theorem executed_once [IsStrictOrderedRing K] {tiles : List TilePos} {s : OpState K}
    (h : J.Executed bld memory tiles s) : tiles.Nodup ∧ ∀ t ∈ tiles, t ∈ getTiles J.info := by
  have hle : (tiles : Multiset TilePos) ≤ (getTiles J.info : Multiset TilePos) := by
    rw [← executed_account htype h]
    exact Multiset.le_add_right _ _
  constructor
  · exact Multiset.coe_nodup.mp (Multiset.nodup_of_le hle (Multiset.coe_nodup.mpr (nodup_getTiles J)))
  · intro t ht
    exact Multiset.mem_coe.mp (Multiset.mem_of_le hle (Multiset.mem_coe.mpr ht))

/-- A run that has returned has executed every tile. -/
theorem executed_all [IsStrictOrderedRing K] {tiles : List TilePos} {s : OpState K}
    (h : J.Executed bld memory tiles s) (hreturned : J.Returned s) : tiles.Perm (getTiles J.info) := by
  have hqueue : s.shared.workQueue = [] :=
    (stateOK_run htype h.run).drained 0 J.threads_pos (hreturned 0 J.threads_pos)
  have hwaiting : ∑ i ∈ Finset.range J.numThreads, waiting (s.workers i) = 0 :=
    Finset.sum_eq_zero fun i hi => by simp only [waiting, hreturned i (Finset.mem_range.mp hi)]
  have haccount := executed_account htype h
  rw [hqueue, hwaiting, Multiset.coe_nil, add_zero, add_zero] at haccount
  exact Multiset.coe_eq_coe.mp haccount

/-- What is merged was executed before. -/
theorem done_le_executed [IsStrictOrderedRing K]
    {R : Absorption bld J.info.profileType J.info.threshold} {tiles : List TilePos} {s : OpState K}
    (h : J.Executed bld memory tiles s) {doneA doneB : Multiset TilePos} (hinv : RunInv R s doneA doneB) :
    doneA ≤ tiles ∧ doneB ≤ tiles := by
  have haccount := executed_account htype h
  have hmerged : ∀ (done : Multiset TilePos) (held : Worker K → Multiset TilePos),
      done + (s.shared.workQueue + ∑ i ∈ Finset.range J.numThreads, held (s.workers i)) =
        (getTiles J.info : Multiset TilePos) → (∀ w, waiting w ≤ held w) → done ≤ tiles := by
    intro done held htiles hheld
    have hsum : ∑ i ∈ Finset.range J.numThreads, waiting (s.workers i) ≤
        ∑ i ∈ Finset.range J.numThreads, held (s.workers i) := Finset.sum_le_sum fun i _ => hheld _
    have hrest := add_le_add_right hsum (s.shared.workQueue : Multiset TilePos)
    refine le_of_add_le_add_right (a := (s.shared.workQueue : Multiset TilePos) +
      ∑ i ∈ Finset.range J.numThreads, waiting (s.workers i)) ?_
    rw [haccount, ← htiles]
    exact add_le_add_right hrest done
  exact ⟨hmerged doneA heldA hinv.tilesA waiting_le_heldA, hmerged doneB heldB hinv.tilesB waiting_le_heldB⟩

end

/-! ## What an entry holds -/

section
variable {J : Join ℝ} {bld : Build ℝ} {memory : ℕ → Tile ℝ} {U : ℕ}

/-- One of the tiles has compared entry `i` of the profile on one side with subsequence `g`, both of them
    taking part in the join: entry `i` is a column of `profile_a`, or a row of where the rows are merged. -/
inductive Compared (J : Join ℝ) (U : ℕ) (tiles : List TilePos) (side : Side) (i g : ℕ) : ℝ → Prop
  | column {t} : side = .a → t ∈ tiles → (g, i) ∈ tileCells U J.info t → J.ValidCell g i →
      Compared J U tiles side i g (J.pearson g i)
  | row {t} : Tile.mergeTargetB J.info = some side → t ∈ tiles → (i, g) ∈ tileCells U J.info t →
      J.ValidCell i g → Compared J U tiles side i g (J.pearson i g)

/-- The entry is initial, or the correlation of a pair that was compared with the global position of the
    other subsequence. -/
def StoredEntry (J : Join ℝ) (U : ℕ) (tiles : List TilePos) (side : Side) (i : ℕ) (e : MpEntry ℝ) : Prop :=
  e = allocEntry .oneNNIndex ∨ ∃ g x, Compared J U tiles side i g x ∧ e = ⟨.num x, UInt32.ofNat g⟩

/-- The entry is initial if nothing was compared with it; otherwise it holds the largest correlation. -/
structure BestEntry (J : Join ℝ) (U : ℕ) (tiles : List TilePos) (side : Side) (i : ℕ) (e : MpEntry ℝ) :
    Prop where
  best : (∃ g x, Compared J U tiles side i g x) → ∃ g x, Compared J U tiles side i g x ∧
    e = ⟨.num x, UInt32.ofNat g⟩ ∧ ∀ g' x', Compared J U tiles side i g' x' → x' ≤ x
  none : (¬∃ g x, Compared J U tiles side i g x) → e = allocEntry .oneNNIndex

/-- What was compared does not depend on the order of the tiles. -/
theorem Compared.mono {tiles tiles' : List TilePos} (hsub : ∀ t ∈ tiles, t ∈ tiles') {side : Side} {i g : ℕ}
    {x : ℝ} (h : Compared J U tiles side i g x) : Compared J U tiles' side i g x := by
  cases h with
  | column hside ht hz hv => exact .column hside (hsub _ ht) hz hv
  | row hside ht hz hv => exact .row hside (hsub _ ht) hz hv

theorem Compared.neg_one_le {tiles : List TilePos} {side : Side} {i g : ℕ} {x : ℝ}
    (h : Compared J U tiles side i g x) : -1 ≤ x := by
  cases h with
  | column => exact neg_one_le_pearson J _ _
  | row => exact neg_one_le_pearson J _ _

/-- Two entries that are best among the same comparisons have one value. -/
theorem BestEntry.value_eq {tiles : List TilePos} {side : Side} {i : ℕ} {e e' : MpEntry ℝ}
    (h : BestEntry J U tiles side i e) (h' : BestEntry J U tiles side i e') : e.value = e'.value := by
  by_cases hsome : ∃ g x, Compared J U tiles side i g x
  · obtain ⟨g, x, hx, rfl, hmax⟩ := h.best hsome
    obtain ⟨g', x', hx', rfl, hmax'⟩ := h'.best hsome
    rw [le_antisymm (hmax' g x hx) (hmax g' x' hx')]
  · rw [h.none hsome, h'.none hsome]

section
variable (htype : J.info.profileType = .oneNNIndex) {side : Side} {doneA doneB : Multiset TilePos} {i : ℕ}
include htype

/-- A hit above the initial value belongs to a cell both of whose windows take part. -/
theorem cellCorr_gt {r c : ℕ} (h : -2 < J.cellCorr r c) : J.ValidCell r c ∧ J.cellCorr r c = J.pearson r c := by
  unfold Join.cellCorr at h ⊢
  split
  · next hv => exact ⟨hv, rfl⟩
  · next hv =>
      rw [if_neg hv, htype] at h
      exact absurd h (lt_irrefl _)

omit htype in
/-- The correlations of what was compared are among the hits. -/
theorem hit_of_compared (hU : 0 < U) {tiles : List TilePos} (hA : ∀ t ∈ tiles, t ∈ doneA)
    (hB : ∀ t ∈ tiles, t ∈ doneB) (htiles : ∀ t ∈ tiles, t ∈ getTiles J.info) {g : ℕ} {x : ℝ}
    (h : Compared J U tiles side i g x) :
    ∃ b ∈ offered J U side doneA doneB i, ⟨x, g⟩ ∈ b := by
  have hmem : (⟨x, g⟩ : Hit ℝ) ∈ hitsOf (offered J U side doneA doneB i) := by
    unfold offered
    rw [hitsOf_add, Multiset.mem_add]
    cases h with
    | @column t hside ht hz hv =>
        left
        rw [if_pos hside, hitsOf_bind, Multiset.mem_bind]
        refine ⟨t, hA t ht, ?_⟩
        rw [hitsOf_columnOffer hU (htiles t ht), mem_columnHits]
        exact ⟨g, hz, by rw [Join.cellCorr, if_pos hv]⟩
    | @row t hside ht hz hv =>
        right
        rw [if_pos hside, hitsOf_bind, Multiset.mem_bind]
        refine ⟨t, hB t ht, ?_⟩
        rw [hitsOf_rowOffer hU (htiles t ht), mem_rowHits]
        exact ⟨g, hz, by rw [Join.cellCorr, if_pos hv]⟩
  rw [hitsOf, Multiset.mem_bind] at hmem
  exact hmem

/-- A hit above the initial value is the correlation of something that was compared. -/
theorem compared_of_hit (hU : 0 < U) {tiles : List TilePos} (hA : ∀ t ∈ doneA, t ∈ tiles)
    (hB : ∀ t ∈ doneB, t ∈ tiles) (htiles : ∀ t ∈ tiles, t ∈ getTiles J.info) {b : Block ℝ}
    (hb : b ∈ offered J U side doneA doneB i) {h : Hit ℝ} (hh : h ∈ b) (hlt : -2 < h.corr) :
    Compared J U tiles side i h.pos h.corr := by
  have hmem : h ∈ hitsOf (offered J U side doneA doneB i) := Multiset.mem_bind.mpr ⟨b, hb, hh⟩
  unfold offered at hmem
  rw [hitsOf_add, Multiset.mem_add] at hmem
  rcases hmem with hmem | hmem
  · split at hmem
    · next hside =>
        rw [hitsOf_bind, Multiset.mem_bind] at hmem
        obtain ⟨t, ht, hmem⟩ := hmem
        rw [hitsOf_columnOffer hU (htiles t (hA t ht)), mem_columnHits] at hmem
        obtain ⟨g, hz, rfl⟩ := hmem
        obtain ⟨hv, hcorr⟩ := cellCorr_gt htype hlt
        dsimp only
        rw [hcorr]
        exact .column hside (hA t ht) hz hv
    · exact absurd hmem (Multiset.notMem_zero _)
  · split at hmem
    · next hside =>
        rw [hitsOf_bind, Multiset.mem_bind] at hmem
        obtain ⟨t, ht, hmem⟩ := hmem
        rw [hitsOf_rowOffer hU (htiles t (hB t ht)), mem_rowHits] at hmem
        obtain ⟨g, hz, rfl⟩ := hmem
        obtain ⟨hv, hcorr⟩ := cellCorr_gt htype hlt
        dsimp only
        rw [hcorr]
        exact .row hside (hB t ht) hz hv
    · exact absurd hmem (Multiset.notMem_zero _)

/-- **An entry that has taken in the offers of executed tiles** holds something they have compared. -/
theorem storedEntry_of_best (hU : 0 < U) {tiles : List TilePos} (hA : ∀ t ∈ doneA, t ∈ tiles)
    (hB : ∀ t ∈ doneB, t ∈ tiles) (htiles : ∀ t ∈ tiles, t ∈ getTiles J.info) {e : MpEntry ℝ}
    (hrel : Best true (allocEntry .oneNNIndex) (offered J U side doneA doneB i) e) :
    StoredEntry J U tiles side i e := by
  obtain ⟨v, hv, _, _, hatt⟩ := hrel (-2) rfl
  rcases hatt with rfl | ⟨b, hb, h, hh, hlt, rfl, hidx⟩
  · exact Or.inl rfl
  · refine Or.inr ⟨h.pos, h.corr, compared_of_hit htype hU hA hB htiles hb hh hlt, ?_⟩
    rw [← hv, ← hidx rfl]

/-- **An entry that has taken in the offers of all tiles** holds the best of them. -/
theorem bestEntry_of_best (hU : 0 < U) {e : MpEntry ℝ}
    (hrel : Best true (allocEntry .oneNNIndex)
      (offered J U side (getTiles J.info) (getTiles J.info) i) e) :
    BestEntry J U (getTiles J.info) side i e := by
  have hall : ∀ t ∈ getTiles J.info, t ∈ (getTiles J.info : Multiset TilePos) := fun t ht => ht
  have hstored := storedEntry_of_best htype hU (fun _ h => h) (fun _ h => h) (fun _ h => h) hrel
  obtain ⟨v, hv, _, hdom, _⟩ := hrel (-2) rfl
  have hbest : ∀ g x, Compared J U (getTiles J.info) side i g x → x ≤ v := by
    intro g x hx
    obtain ⟨b, hb, hh⟩ := hit_of_compared hU hall hall (fun _ h => h) hx
    exact hdom b hb _ hh
  constructor
  · rintro ⟨g, x, hx⟩
    rcases hstored with rfl | ⟨g', x', hx', rfl⟩
    · -- the initial value is below every correlation
      have hv2 : -2 = v := Dbl.num.inj hv
      have hle := hbest g x hx
      have hge := hx.neg_one_le
      linarith
    · obtain rfl : x' = v := Dbl.num.inj hv
      exact ⟨g', x', hx', rfl, hbest⟩
  · intro hnone
    rcases hstored with rfl | ⟨g', x', hx', _⟩
    · rfl
    · exact absurd ⟨g', x', hx'⟩ hnone

end

/-- **Every interleaving of the workers.** For any number of workers and any assignment of tiles to them, a
    run executes no tile twice and has executed all of them when it returns, which every run can. In every
    state it reaches, an entry of a profile is initial or the correlation of a compared pair with the global
    position of the match; its value never decreases; and when all have returned it is the largest
    correlation of everything compared with the entry, which no interleaving can change. -/
theorem workers_interleaved (J : Join ℝ) (bld : Build ℝ) (htype : J.args.profileType = .oneNNIndex)
    (memory : ℕ → Tile ℝ) :
    (∀ s, J.Run bld memory s → ∃ tiles, J.Executed bld memory tiles s) ∧
    (∀ tiles s, J.Executed bld memory tiles s →
      tiles.Nodup ∧ (∀ t ∈ tiles, t ∈ getTiles J.info) ∧ (J.Returned s → tiles.Perm (getTiles J.info)) ∧
      ∀ side, Computed J side → ∀ i,
        StoredEntry J bld.unrollWid tiles side i ((s.shared.profile side).data.get i)) ∧
    (∀ s s', J.Run bld memory s →
      Relation.ReflTransGen (OpStep (J.operation bld) J.numThreads) s s' → ∀ side, Computed J side → ∀ i,
        ∃ v v', ((s.shared.profile side).data.get i).value = .num v ∧
          ((s'.shared.profile side).data.get i).value = .num v' ∧ v ≤ v') ∧
    (∀ s, J.Run bld memory s → J.Returned s → ∀ side, Computed J side → ∀ i,
      BestEntry J bld.unrollWid (getTiles J.info) side i ((s.shared.profile side).data.get i)) ∧
    (∀ s s', J.Run bld memory s → J.Returned s → J.Run bld memory s' → J.Returned s' →
      ∀ side, Computed J side → ∀ i,
        ((s.shared.profile side).data.get i).value = ((s'.shared.profile side).data.get i).value) ∧
    (cpuPrecision J.args.precisionType → ∀ s, J.Run bld memory s →
      ∃ s', Relation.ReflTransGen (OpStep (J.operation bld) J.numThreads) s s' ∧ J.Returned s') := by
  have hinfo : J.info.profileType = .oneNNIndex := htype
  have hentry : entryType J.info.profileType = true := by
    rw [hinfo]
    rfl
  have hsame : J.info.profileType = .oneNN → J.info.keepRowsSeparate = false := by
    rw [hinfo]
    exact nofun
  have hU := unrollWid_pos bld
  obtain ⟨R, hR⟩ : ∃ R : Absorption bld J.info.profileType J.info.threshold, R.rel = Best true := by
    rw [hinfo]
    exact ⟨bestIndexAbsorption bld J.info.threshold, rfl⟩
  -- in any state: the entries have taken in the offers of tiles that were executed
  have hstored : ∀ tiles s, J.Executed bld memory tiles s → ∀ side, Computed J side → ∀ i,
      StoredEntry J bld.unrollWid tiles side i ((s.shared.profile side).data.get i) := by
    intro tiles s hrun side hside i
    have hgood : Relation.ReflTransGen (GoodStep R) (J.initState memory) s :=
      run_good_of_same hentry hsame hrun.run
    obtain ⟨_, doneA, doneB, hinv⟩ := runInv_run hentry hgood
    obtain ⟨hA, hB⟩ := done_le_executed (R := R) hentry hrun hinv
    have hrel := hinv.profile side hside i
    rw [hR, hinfo] at hrel
    exact storedEntry_of_best hinfo hU (fun t ht => Multiset.mem_of_le hA ht)
      (fun t ht => Multiset.mem_of_le hB ht) (executed_once hentry hrun).2 hrel
  -- at the end: those of all tiles
  have hbest : ∀ s, J.Run bld memory s → J.Returned s → ∀ side, Computed J side → ∀ i,
      BestEntry J bld.unrollWid (getTiles J.info) side i ((s.shared.profile side).data.get i) := by
    intro s hrun hreturned side hside i
    have hrel := returned_entry (R := R) hentry (run_good_of_same hentry hsame hrun) hreturned hside i
    rw [hR, hinfo] at hrel
    exact bestEntry_of_best hinfo hU hrel
  refine ⟨fun s hrun => exists_executed hrun, ?_, ?_, hbest, ?_, fun hfp s hrun =>
    runs_return hentry hfp (stateOK_run hentry hrun)⟩
  · intro tiles s hrun
    obtain ⟨hnodup, hsub⟩ := executed_once hentry hrun
    exact ⟨hnodup, hsub, executed_all hentry hrun, hstored tiles s hrun⟩
  · intro s s' hrun hrest side hside i
    obtain ⟨tiles, htiles⟩ := exists_executed hrun
    obtain ⟨v, hv⟩ : ∃ v, ((s.shared.profile side).data.get i).value = .num v := by
      rcases hstored tiles s htiles side hside i with he | ⟨g, x, _, he⟩
      · exact ⟨-2, by rw [he]; rfl⟩
      · exact ⟨x, by rw [he]⟩
    obtain ⟨v', hv', hle⟩ := run_atLeast (Or.inl htype) (stateOK_run hentry hrun) hrest ⟨v, hv, le_refl v⟩
    exact ⟨v, v', hv, hv', hle⟩
  · intro s s' hrun hreturned hrun' hreturned' side hside i
    exact (hbest s hrun hreturned side hside i).value_eq (hbest s' hrun' hreturned' side hside i)

theorem workers_interleaved_twoWindow :
    ∃ tiles s, twoWindowJoin.Executed scanBuild (fun _ => zeroTile) tiles s ∧ twoWindowJoin.Returned s ∧
      tiles.Perm (getTiles twoWindowJoin.info) ∧
      ∀ i, BestEntry twoWindowJoin (scanBuild (K := ℝ)).unrollWid (getTiles twoWindowJoin.info) .a i
        (s.shared.profileA.data.get i) := by
  obtain ⟨htiles, hexecuted, _, hbest, _, hreturns⟩ :=
    workers_interleaved twoWindowJoin scanBuild rfl fun _ => zeroTile
  obtain ⟨s, hrun, hreturned⟩ := hreturns (Or.inl rfl) _ .refl
  obtain ⟨tiles, hs⟩ := htiles s hrun
  exact ⟨tiles, s, hs, hreturned, (hexecuted tiles s hs).2.2.1 hreturned,
    hbest s hrun hreturned .a (Or.inl rfl)⟩

end

end Scamp
