import Scamp.Gpu.Correctness.LaunchInvariant

/-!
# `Gpu.Correctness.LaunchRun` — every interleaving of a launch

The invariant of a launch holds before its first turn (`launchInv_start`), and every turn keeps it
(`launchInv_turn`), whichever thread or block it is of: an access of a thread touches one entry, which only
grows, and a barrier opens only when all threads of its block are there. No turn fails that a thread is
ready for (`access_ready`, `barrier_ready`).
-/

namespace Scamp

open Lib

namespace SlidingWindow

namespace DoTile

section
variable {K : Type} [Field K] [LinearOrder K] {L : Launch K} {base : Side → Buffer (MpEntry K)}
  {m m' : GlobalMemory K} {b : ℕ} {s : BlockState K}

/-! ## Growing profiles -/

theorem WritesBack.grows (h : WritesBack L base m b s) (hgrows : Grows m m') : WritesBack L base m' b s where
  pending := h.pending
  held := fun z hz side hon => (h.held z hz side hon).imp_left fun hc w hw => hgrows _ _ _ (hc w hw)

theorem BlockInv.grows (h : BlockInv L base m b s) (hgrows : Grows m m') : BlockInv L base m' b s := by
  unfold BlockInv at h ⊢
  split at h
  · exact { h with toWritesBack := h.toWritesBack.grows hgrows }
  · exact { h with held := fun z hz side hon w hw => hgrows _ _ _ (h.held z hz side hon w hw) }
  · exact h
  · exact { h with toWritesBack := h.toWritesBack.grows hgrows }

section
variable {side side' : Side} {pos pos' : ℕ} {f : MpEntry K → MpEntry K}

omit [Field K] [LinearOrder K] in
theorem setEntry_profile_self : (m.setEntry side pos f).profile side pos = f (m.profile side pos) :=
  update_update_self

omit [Field K] [LinearOrder K] in
theorem setEntry_profile_ne (h : ¬(side' = side ∧ pos' = pos)) :
    (m.setEntry side pos f).profile side' pos' = m.profile side' pos' := update_update_ne h

end

variable (hper : PerEntry L.type) (hbase : StartsAbove L base)

include hbase in
/-- A fair entry is a number. -/
theorem Fair.num {side : Side} {pos : ℕ} {e : MpEntry K} (h : Fair L base side pos e)
    (hon : L.computing side = true) (hpos : pos < L.size side) : ∃ v, e.value = .num v ∧ -2 ≤ v := by
  obtain ⟨u, hu, hle⟩ := hbase side pos hon hpos
  obtain ⟨v, hv, hle'⟩ := h.atLeast hu
  exact ⟨v, hv, hle.trans hle'⟩

include hper

/-- **Writing an entry back** offers it to the profile. -/
theorem writeBackValue_takes {side : Side} {g : ℕ} {e : MpEntry K} {v w : K} (hv : (m.profile side g).value = .num v)
    (hw : e.value = .num w) : ∃ f, writeBackValue L side g e m = m.setEntry side g f ∧
      Takes (keepsIndex L.type) (m.profile side g) e (f (m.profile side g)) := by
  rcases hper with hone | hindex
  · refine ⟨fun old => { old with value := fAtomicMax old.value e.value }, ?_, ?_⟩
    · unfold writeBackValue
      rw [hone]
    · rw [hone]
      exact fAtomicMax_takes hv hw
  · refine ⟨fun old => mpAtomicMax old e.value e.index, ?_, mpAtomicMax_takes hv⟩
    unfold writeBackValue
    rw [hindex]

include hbase

/-! ## The accesses between two tiles -/

/-- **A store.** -/
theorem WritesBack.store (h : WritesBack L base m b s) (hmem : MemFair L base m) {t : ℕ} (ht : t < L.cfg.blocksz)
    {side : Side} {pos g : ℕ} {rest : List (Access K)} (htodo : (s.thread t).todo = .store side pos g :: rest) :
    MemFair L base (writeBackValue L side g (s.smem.localMp side pos) m) ∧
      Grows m (writeBackValue L side g (s.smem.localMp side pos) m) ∧
      WritesBack L base (writeBackValue L side g (s.smem.localMp side pos) m) b
        (s.step t s.smem (s.thread t).checked rest) := by
  obtain ⟨⟨hon, hg⟩, hmod, hfair⟩ := h.pending t ht side pos g (by rw [htodo]; exact List.mem_cons_self)
  obtain ⟨u, hu, -⟩ := hbase side g hon hg
  obtain ⟨v, hv, -⟩ := (hmem.fair side g hon hg).num hbase hon hg
  obtain ⟨w, hw, -⟩ := hfair.num hbase hon hg
  obtain ⟨f, hback, htakes⟩ := writeBackValue_takes hper hv hw
  have hgrows : Grows m (writeBackValue L side g (s.smem.localMp side pos) m) := by
    intro side' pos' x hx
    rw [hback]
    by_cases heq : side' = side ∧ pos' = g
    · obtain ⟨rfl, rfl⟩ := heq
      rw [setEntry_profile_self]
      exact hx.takes htakes
    · rwa [setEntry_profile_ne heq]
  refine ⟨⟨fun side' pos' hon' hpos' => ?_, fun side' pos' hout => ?_⟩, hgrows,
    ⟨fun t' ht' side' pos' g' hx => ?_, fun z hz side' hon' => ?_⟩⟩
  · rw [hback]
    by_cases heq : side' = side ∧ pos' = g
    · obtain ⟨rfl, rfl⟩ := heq
      rw [setEntry_profile_self]
      exact (hmem.fair side' pos' hon hg).merge hfair hu htakes
    · rw [setEntry_profile_ne heq]
      exact hmem.fair side' pos' hon' hpos'
  · rw [hback, setEntry_profile_ne (by rintro ⟨rfl, rfl⟩; exact hout ⟨hon, hg⟩)]
    exact hmem.kept side' pos' hout
  · exact h.pending t' ht' side' pos' g' (mem_todo_of_step htodo hx)
  · rcases h.held z hz side' hon' with hc | ⟨t', ht', pos', hx, hc⟩
    · exact Or.inl fun x hx => hgrows _ _ _ (hc x hx)
    · rcases mem_step_todo htodo hx with ⟨rfl, heq⟩ | hx
      · -- the store of this cell
        cases heq
        refine Or.inl fun x hx => ?_
        obtain ⟨w', hw', hle⟩ := hc x hx
        obtain ⟨v', hv', hle'⟩ := htakes.covers w' hw'
        rw [hback, setEntry_profile_self]
        exact ⟨v', hv', hle.trans hle'⟩
      · exact Or.inr ⟨t', ht', pos', hx, hc⟩

omit hbase in
/-- **A load.** -/
theorem load_effect (hmem : MemFair L base m) (smem : BlockSmem K) (checked : Checked K) {k : ℕ} {side : Side}
    {pos : ℕ} (hin : OnTile L b k side pos) :
    ∃ smem', (Access.load side pos (L.tileStart b k side + pos)).exec L m smem checked = some (m, smem', checked) ∧
      Loaded L base b k smem' side pos ∧
      ∀ side' pos', ¬(side' = side ∧ pos' = pos) → smem'.localMp side' pos' = smem.localMp side' pos' ∧
        ∀ g, HoldsStats L smem'.toSCAMPSmem side' pos' g ↔ HoldsStats L smem.toSCAMPSmem side' pos' g := by
  have hinit : ∀ stored, initializer L side (L.tileStart b k side + pos) stored = stored := by
    intro stored
    unfold initializer
    rcases hper with hone | hindex
    · rw [hone]
    · rw [hindex]
  refine ⟨_, rfl, ?_, ?_⟩
  · split
    · refine ⟨?_, fun hon => ?_⟩
      · rw [holdsStats_setLocalMp]
        exact holdsStats_setStats_self
      · rw [localMp_setLocalMp_self, hinit]
        exact hmem.fair side _ hon hin.2
    · next hoff => exact ⟨holdsStats_setStats_self, fun hon => absurd hon hoff⟩
  · intro side' pos' hne
    split
    · refine ⟨?_, fun g => ?_⟩
      · rw [localMp_setLocalMp_ne hne, localMp_setStats]
      · rw [holdsStats_setLocalMp, holdsStats_setStats_ne hne]
    · refine ⟨?_, fun g => ?_⟩
      · rw [localMp_setStats]
      · rw [holdsStats_setStats_ne hne]

/-- **An access while a tile is loaded.** -/
theorem Loads.access (h : Loads L base m b s) (hmem : MemFair L base m) {t : ℕ} (ht : t < L.cfg.blocksz)
    {x : Access K} {rest : List (Access K)} (htodo : (s.thread t).todo = x :: rest) :
    ∃ next, x.exec L m s.smem (s.thread t).checked = some next ∧ MemFair L base next.1 ∧ Grows m next.1 ∧
      Loads L base next.1 b (s.step t next.2.1 next.2.2 rest) := by
  have hbefore : ∀ {smem checked}, ∀ t' < L.cfg.blocksz,
      BeforeTile L b s.tile t' ((s.step t smem checked rest).thread t').info := fun t' ht' => by
    rw [step_info]
    exact h.before t' ht'
  obtain ⟨stores, loads, heq, hstores, hloads⟩ := h.order t ht
  cases stores with
  | cons y stores =>
      obtain ⟨rfl, rfl⟩ := List.cons.inj (htodo.symm.trans heq)
      obtain ⟨side, pos, g, rfl⟩ := hstores x List.mem_cons_self
      obtain ⟨hmem', hgrows, hback⟩ := h.toWritesBack.store hper hbase hmem ht htodo
      refine ⟨_, rfl, hmem', hgrows, { hback with before := hbefore, order := fun t' ht' => ?_, loaded := ?_ }⟩
      · by_cases heq' : t' = t
        · subst heq'
          exact ⟨stores, loads, step_todo, fun y hy => hstores y (List.mem_cons_of_mem _ hy), hloads⟩
        · rw [step_thread_ne heq']
          exact h.order t' ht'
      · intro side' pos' hin
        rcases h.loaded side' pos' hin with hload | hload
        · rcases mem_step_todo htodo hload with ⟨-, hx⟩ | hload
          · cases hx
          · exact Or.inl hload
        · exact Or.inr hload
  | nil =>
      rw [List.nil_append] at heq
      rw [htodo] at heq
      obtain ⟨side, pos, hmod, hin, rfl⟩ := hloads x (heq ▸ List.mem_cons_self)
      obtain ⟨smem', hexec, hself, hother⟩ := load_effect hper hmem s.smem (s.thread t).checked hin
      -- no entry that is still to be written back is overwritten
      have hpending : ∀ t' < L.cfg.blocksz, ∀ side' pos' g', .store side' pos' g' ∈ (s.thread t').todo →
          smem'.localMp side' pos' = s.smem.localMp side' pos' := by
        intro t' ht' side' pos' g' hx
        refine (hother side' pos' ?_).1
        rintro ⟨rfl, rfl⟩
        obtain ⟨-, hmod', -⟩ := h.pending t' ht' side' pos' g' hx
        obtain rfl : t = t' := hmod.symm.trans hmod'
        rw [htodo, heq] at hx
        obtain ⟨_, _, _, _, hx⟩ := hloads _ hx
        cases hx
      refine ⟨_, hexec, hmem, fun _ _ _ hx => hx, ⟨⟨?_, ?_⟩, hbefore, fun t' ht' => ?_, ?_⟩⟩
      · intro t' ht' side' pos' g' hx
        have hx := mem_todo_of_step htodo hx
        obtain ⟨hin', hmod', hfair⟩ := h.pending t' ht' side' pos' g' hx
        exact ⟨hin', hmod', by rw [← hpending t' ht' side' pos' g' hx] at hfair; exact hfair⟩
      · intro z hz side' hon'
        refine (h.held z hz side' hon').imp_right ?_
        rintro ⟨t', ht', pos', hx, hc⟩
        rw [← hpending t' ht' side' pos' _ hx] at hc
        rcases mem_step_todo htodo hx with ⟨-, hx⟩ | hx
        · cases hx
        · exact ⟨t', ht', pos', hx, hc⟩
      · by_cases heq' : t' = t
        · subst heq'
          refine ⟨[], rest, step_todo, fun y hy => absurd hy List.not_mem_nil, fun y hy => hloads y ?_⟩
          rw [← heq]
          exact List.mem_cons_of_mem _ hy
        · rw [step_thread_ne heq']
          exact h.order t' ht'
      · intro side' pos' hin'
        by_cases hsame : side' = side ∧ pos' = pos
        · obtain ⟨rfl, rfl⟩ := hsame
          exact Or.inr hself
        · obtain ⟨hmp, hstats⟩ := hother side' pos' hsame
          rcases h.loaded side' pos' hin' with hload | hload
          · rcases mem_step_todo htodo hload with ⟨-, hx⟩ | hload
            · cases hx
              exact absurd ⟨rfl, rfl⟩ hsame
            · exact Or.inl hload
          · refine Or.inr ⟨(hstats _).mpr hload.stats, fun hon => ?_⟩
            have hfair := hload.fair hon
            rw [← hmp] at hfair
            exact hfair

/-- An access after the last tile. -/
theorem Ends.access (h : Ends L base m b s) (hmem : MemFair L base m) {t : ℕ} (ht : t < L.cfg.blocksz)
    {x : Access K} {rest : List (Access K)} (htodo : (s.thread t).todo = x :: rest) :
    ∃ next, x.exec L m s.smem (s.thread t).checked = some next ∧ MemFair L base next.1 ∧ Grows m next.1 ∧
      Ends L base next.1 b (s.step t next.2.1 next.2.2 rest) := by
  obtain ⟨side, pos, g, rfl⟩ := h.stores t ht x (by rw [htodo]; exact List.mem_cons_self)
  obtain ⟨hmem', hgrows, hback⟩ := h.toWritesBack.store hper hbase hmem ht htodo
  exact ⟨_, rfl, hmem', hgrows, { hback with
    stores := fun t' ht' x hx => h.stores t' ht' x (mem_todo_of_step htodo hx)
    noTile := h.noTile }⟩

/-! ## The accesses while a tile is computed -/

omit hper in
/-- **An offer is taken** by the entry it is for. -/
theorem Computes.take (h : Computes L base m b s) {t : ℕ} (ht : t < L.cfg.blocksz) {x : Access K}
    {rest : List (Access K)} (htodo : (s.thread t).todo = x :: rest) {side : Side} {slot : ℕ} {o e' : MpEntry K}
    (ho : x.offer = some (side, slot, o)) (hcheck : ∀ side slot, x ≠ .check side slot)
    (htakes : Takes (keepsIndex L.type) (s.smem.localMp side slot) o e') :
    Computes L base m b (s.step t (s.smem.setLocalMp side slot e') (s.thread t).checked rest) := by
  obtain ⟨⟨hon, hin⟩, hgenuine⟩ := h.genuine t ht x (by rw [htodo]; exact List.mem_cons_self) side slot o ho
  have hchecked : ∀ t', ((s.step t (s.smem.setLocalMp side slot e') (s.thread t).checked rest).thread t').checked =
      (s.thread t').checked := by
    intro t'
    by_cases heq : t' = t
    · subst heq
      exact step_checked
    · rw [step_thread_ne heq]
  -- no entry becomes smaller
  have hgrows : ∀ side' slot' w, AtLeast w (s.smem.localMp side' slot') →
      AtLeast w ((s.smem.setLocalMp side slot e').localMp side' slot') := by
    intro side' slot' w hw
    by_cases heq : side' = side ∧ slot' = slot
    · obtain ⟨rfl, rfl⟩ := heq
      rw [localMp_setLocalMp_self]
      exact hw.takes htakes
    · rwa [localMp_setLocalMp_ne heq]
  refine ⟨fun side' pos' hin' => ?_, h.held, fun t' ht' => ?_, fun t' ht' y hy => ?_,
    fun t' ht' y hy => h.genuine t' ht' y (mem_todo_of_step htodo hy), fun t' ht' pre side' slot' best post heq => ?_,
    fun t' ht' side' slot' d hd hon' hin' => ?_, fun z hz side' hon' => ?_⟩
  · have hloaded := h.loaded side' pos' hin'
    refine ⟨holdsStats_setLocalMp.mpr hloaded.stats, fun hon' => ?_⟩
    show Fair L base side' _ ((s.smem.setLocalMp side slot e').localMp side' pos')
    by_cases heq : side' = side ∧ pos' = slot
    · obtain ⟨rfl, rfl⟩ := heq
      rw [localMp_setLocalMp_self]
      exact (hloaded.fair hon').takes (hbase side' _ hon' hin'.2) hgenuine htakes
    · rw [localMp_setLocalMp_ne heq]
      exact hloaded.fair hon'
  · rw [step_info]
    exact h.before t' ht'
  · exact h.sound t' ht' y (mem_todo_of_step htodo hy)
  · rw [hchecked]
    by_cases hsame : t' = t
    · subst hsame
      rw [step_todo] at heq
      refine (h.guarded t' ht' (x :: pre) side' slot' best post (by rw [htodo, heq]; rfl)).imp_left fun hx => ?_
      exact (List.mem_cons.mp hx).resolve_left fun hx => hcheck side' slot' hx.symm
    · rw [step_thread_ne hsame] at heq
      exact h.guarded t' ht' pre side' slot' best post heq
  · rw [hchecked] at hd
    obtain ⟨c, hc, hle⟩ := h.checked t' ht' side' slot' d hd hon' hin'
    exact ⟨c, hc, hgrows _ _ _ hle⟩
  · rcases h.offered z hz side' hon' with hc | ⟨t', ht', y, hy, o', ho', hc⟩
    · exact Or.inl fun w hw => hgrows _ _ _ (hc w hw)
    · rcases mem_step_todo htodo hy with ⟨rfl, rfl⟩ | hy
      · -- the offer of this cell
        rw [ho] at ho'
        obtain ⟨rfl, rfl, rfl⟩ : side = side' ∧ slot = _ ∧ o = o' := by
          simpa only [Option.some.injEq, Prod.mk.injEq] using ho'
        refine Or.inl fun w hw => ?_
        show AtLeast w ((s.smem.setLocalMp side _ e').localMp side (cellPos side z - L.tileStart b s.tile side))
        rw [localMp_setLocalMp_self]
        obtain ⟨w', hw', hle⟩ := hc w hw
        obtain ⟨v', hv', hle'⟩ := htakes.covers w' hw'
        exact ⟨v', hv', hle.trans hle'⟩
      · exact Or.inr ⟨t', ht', y, hy, o', ho', hc⟩

/-- **An access while a tile is computed.** -/
theorem Computes.access (h : Computes L base m b s) {t : ℕ} (ht : t < L.cfg.blocksz) {x : Access K}
    {rest : List (Access K)} (htodo : (s.thread t).todo = x :: rest) :
    ∃ next, x.exec L m s.smem (s.thread t).checked = some next ∧ next.1 = m ∧
      Computes L base m b (s.step t next.2.1 next.2.2 rest) := by
  have hmem : x ∈ (s.thread t).todo := by
    rw [htodo]
    exact List.mem_cons_self
  have hmax := hper.keepsMax
  have hsound := h.sound t ht x hmem
  -- the entry of an offer is a number
  have hnum : ∀ side slot o, x.offer = some (side, slot, o) → ∃ v, (s.smem.localMp side slot).value = .num v ∧
      -2 ≤ v := by
    intro side slot o ho
    obtain ⟨⟨hon, hin⟩, -⟩ := h.genuine t ht x hmem side slot o ho
    exact ((h.loaded side slot hin).fair hon).num hbase hon hin.2
  cases x with
  | load side pos g | store side pos g => exact hsound.elim
  | copyLengths => exact hsound.elim
  | check side slot =>
      refine ⟨_, rfl, rfl, h.loaded, h.held, fun t' ht' => ?_, fun t' ht' y hy => ?_,
        fun t' ht' y hy => h.genuine t' ht' y (mem_todo_of_step htodo hy),
        fun t' ht' pre side' slot' best post heq => ?_, fun t' ht' side' slot' d hd hon' hin' => ?_,
        fun z hz side' hon' => ?_⟩
      · rw [step_info]
        exact h.before t' ht'
      · exact h.sound t' ht' y (mem_todo_of_step htodo hy)
      · by_cases hsame : t' = t
        · subst hsame
          rw [step_todo] at heq
          rw [step_checked]
          rcases h.guarded t' ht' (.check side slot :: pre) side' slot' best post (by rw [htodo, heq]; rfl) with
            hx | hx
          · rcases List.mem_cons.mp hx with hx | hx
            · cases hx
              exact Or.inr (Option.isSome_iff_exists.mpr ⟨_, update_update_self⟩)
            · exact Or.inl hx
          · by_cases hread : side' = side ∧ slot' = slot
            · obtain ⟨rfl, rfl⟩ := hread
              exact Or.inr (Option.isSome_iff_exists.mpr ⟨_, update_update_self⟩)
            · right
              rwa [← update_update_ne (f := (s.thread t').checked) hread] at hx
        · rw [step_thread_ne hsame] at heq ⊢
          exact h.guarded t' ht' pre side' slot' best post heq
      · by_cases hsame : t' = t
        · subst hsame
          rw [step_checked] at hd
          by_cases hread : side' = side ∧ slot' = slot
          · obtain ⟨rfl, rfl⟩ := hread
            obtain ⟨v, hv, -⟩ := ((h.loaded side' slot' hin').fair hon').num hbase hon' hin'.2
            exact ⟨v, (Option.some.inj (update_update_self.symm.trans hd)).symm.trans hv, v, hv, le_rfl⟩
          · exact h.checked t' ht' side' slot' d ((update_update_ne hread).symm.trans hd) hon' hin'
        · rw [step_thread_ne hsame] at hd
          exact h.checked t' ht' side' slot' d hd hon' hin'
      · rcases h.offered z hz side' hon' with hc | ⟨t', ht', y, hy, o', ho', hc⟩
        · exact Or.inl hc
        · rcases mem_step_todo htodo hy with ⟨-, rfl⟩ | hy
          · cases ho'
          · exact Or.inr ⟨t', ht', y, hy, o', ho', hc⟩
  | flush side slot best =>
      obtain ⟨⟨hon, hin⟩, -⟩ := h.genuine t ht _ hmem side slot best rfl
      obtain ⟨v, hv, -⟩ := hnum side slot best rfl
      obtain ⟨w, hw⟩ := hsound
      -- the value was read before
      obtain ⟨d, hd⟩ := Option.isSome_iff_exists.mp
        ((h.guarded t ht [] side slot best rest htodo).resolve_left List.not_mem_nil)
      obtain ⟨c, rfl, v', hv', hle⟩ := h.checked t ht side slot d hd hon hin
      obtain rfl := Dbl.num.inj (hv.symm.trans hv')
      obtain ⟨e', hflush⟩ : ∃ e', flushEntry L (some (.num c)) (s.smem.localMp side slot) best = some e' := by
        unfold flushEntry
        rcases hper with hone | hindex
        · rw [hone]
          exact ⟨_, rfl⟩
        · rw [hindex]
          exact ⟨_, rfl⟩
      refine ⟨(m, s.smem.setLocalMp side slot e', (s.thread t).checked), ?_, rfl,
        h.take hbase ht htodo rfl (fun _ _ => nofun) (flushEntry_takes hmax hv hw hle hflush)⟩
      show (do let e ← flushEntry L ((s.thread t).checked side slot) (s.smem.localMp side slot) best
               return (m, s.smem.setLocalMp side slot e, (s.thread t).checked)) = _
      rw [hd, hflush]
      rfl
  | reduceEdge slot globalRow dist =>
      obtain ⟨v, hv, -⟩ := hnum .a slot _ rfl
      exact ⟨_, rfl, rfl, h.take hbase ht htodo rfl (fun _ _ => nofun) (edgeColumn_takes hmax hv globalRow dist)⟩
  | reduceRow slot distRow =>
      obtain ⟨v, hv, hinit⟩ := hnum .b slot _ rfl
      obtain ⟨w, hw⟩ := hsound
      exact ⟨_, rfl, rfl, h.take hbase ht htodo rfl (fun _ _ => nofun) (reduceRow_takes hmax hv hinit hw)⟩

/-- **An access**, whatever the block does. -/
theorem BlockInv.access (h : BlockInv L base m b s) (hmem : MemFair L base m) {t : ℕ} (ht : t < L.cfg.blocksz)
    {x : Access K} {rest : List (Access K)} (htodo : (s.thread t).todo = x :: rest) :
    ∃ next, x.exec L m s.smem (s.thread t).checked = some next ∧ MemFair L base next.1 ∧ Grows m next.1 ∧
      BlockInv L base next.1 b (s.step t next.2.1 next.2.2 rest) := by
  obtain ⟨tile, phase, smem, thread⟩ := s
  cases phase with
  | loading => exact Loads.access hper hbase h hmem ht htodo
  | finished => exact Ends.access hper hbase h hmem ht htodo
  | storing => exact h.elim
  | computing =>
      obtain ⟨next, hexec, rfl, hnext⟩ := Computes.access hper hbase h ht htodo
      exact ⟨next, hexec, hmem, fun _ _ _ hx => hx, hnext⟩

omit hper hbase

/-! ## Barriers -/

omit [Field K] in
/-- The cells of a thread are cells of the launch. -/
theorem rowsCells_subset (hb : b < numBlocks L.cfg L.dims) {t : ℕ} (ht : t < L.cfg.blocksz) (row n : ℕ) :
    rowsCells L b t row n ⊆ L.cells := fun _ hz => ⟨b, hb, t, ht, hz.2⟩

theorem passBarrier_loading (raw : RawTile K) (hphase : s.phase = .loading) (hwork : ∀ t < L.cfg.blocksz,
      (tileWork L b raw s.smem.toSCAMPSmem (fun t => (s.thread t).info) s.tile t).isSome) :
    ∃ thread', passBarrier L raw b s = some { s with phase := .computing, thread := thread' } ∧
      ∀ t next, tileWork L b raw s.smem.toSCAMPSmem (fun t => (s.thread t).info) s.tile t = some next →
        thread' t = { info := next.1, checked := fun _ _ => none, todo := next.2 } := by
  unfold passBarrier
  rw [hphase]
  refine ⟨_, if_pos hwork, fun t next heq => ?_⟩
  rw [heq]

include hper in
/-- **The tile is loaded.** -/
theorem Loads.barrier (h : Loads L base m b s) (hphase : s.phase = .loading) (hb : b < numBlocks L.cfg L.dims)
    (hempty : ∀ t < L.cfg.blocksz, (s.thread t).todo = []) (raw : RawTile K) :
    ∃ s', passBarrier L raw b s = some s' ∧ BlockInv L base m b s' := by
  have hloaded : ∀ side pos, OnTile L b s.tile side pos → Loaded L base b s.tile s.smem side pos := by
    intro side pos hin
    refine (h.loaded side pos hin).resolve_left fun hx => ?_
    rw [hempty _ (Nat.mod_lt _ L.cfg.blocksz_pos)] at hx
    cases hx
  have hwork : ∀ t < L.cfg.blocksz, ∃ next accesses,
      tileWork L b raw s.smem.toSCAMPSmem (fun t => (s.thread t).info) s.tile t = some (next, accesses) ∧
        BeforeTile L b (s.tile + 1) t next ∧ TileOffers L (L.tileStart b s.tile)
          (rowsCells L b t (s.tile * L.cfg.tileHeight) L.cfg.tileHeight) accesses := fun t ht =>
    tileWork_offers (fun side pos hext hsize => (hloaded side pos ⟨hext, hsize⟩).stats) ht hper.keepsMax raw
      (h.before t ht)
  obtain ⟨thread', hpass, hthread'⟩ := passBarrier_loading raw hphase fun t ht => by
    obtain ⟨next, accesses, heq, -⟩ := hwork t ht
    rw [heq]
    rfl
  refine ⟨_, hpass, ?_⟩
  have hwork' : ∀ t < L.cfg.blocksz, BeforeTile L b (s.tile + 1) t (thread' t).info ∧
      (thread' t).checked = (fun _ _ => none) ∧ TileOffers L (L.tileStart b s.tile)
        (rowsCells L b t (s.tile * L.cfg.tileHeight) L.cfg.tileHeight) (thread' t).todo := by
    intro t ht
    obtain ⟨next, accesses, heq, hnext, hoffers⟩ := hwork t ht
    rw [hthread' t _ heq]
    exact ⟨hnext, rfl, hoffers⟩
  show Computes L base m b { s with phase := .computing, thread := thread' }
  refine ⟨hloaded, fun z hz side hon => ?_, fun t ht => (hwork' t ht).1, fun t ht => (hwork' t ht).2.2.sound,
    fun t ht x hx side slot o ho => ?_, fun t ht pre side slot best post heq => Or.inl ?_,
    fun t ht side slot d hd => ?_, fun z hz side hon => ?_⟩
  · refine (h.held z hz side hon).resolve_right ?_
    rintro ⟨t, ht, pos, hx, -⟩
    rw [hempty t ht] at hx
    cases hx
  · obtain ⟨⟨hon, hin⟩, hgenuine⟩ := (hwork' t ht).2.2.genuine x hx side slot o ho
    exact ⟨⟨hon, hin⟩, hgenuine.mono (sideHits_mono (rowsCells_subset hb ht _ _) _ _)⟩
  · exact (hwork' t ht).2.2.guarded pre side slot best post heq
  · have hd : (thread' t).checked side slot = some d := hd
    rw [(hwork' t ht).2.1] at hd
    cases hd
  · obtain ⟨t, ht, hz⟩ := hz
    cases hcorr : L.corr z.1 z.2 with
    | nan => exact Or.inl fun w hw => by rw [hcorr] at hw; cases hw
    | num w =>
        obtain ⟨x, hx, o, ho, hle⟩ := (hwork' t ht).2.2.covers z hz side hon w hcorr
        refine Or.inr ⟨t, ht, x, hx, o, ho, fun w' hw' => ?_⟩
        obtain rfl := Dbl.num.inj (hcorr.symm.trans hw')
        exact hle

/-- The entries of a tile when it is computed, with the threads about to take them back. -/
theorem Computes.writesBack (h : Computes L base m b s) (hempty : ∀ t < L.cfg.blocksz, (s.thread t).todo = [])
    {s' : BlockState K} (htile : s'.tile = s.tile + 1) (hsmem : s'.smem = s.smem)
    (htodo : ∀ t < L.cfg.blocksz, ∀ side pos g, .store side pos g ∈ (s'.thread t).todo ↔
      .store side pos g ∈ writeBack L b s.tile t) : WritesBack L base m b s' where
  pending := by
    intro t ht side pos g hx
    obtain ⟨side', pos', hon, hmod, hin, heq⟩ := (mem_writeBack ht).mp ((htodo t ht side pos g).mp hx)
    cases heq
    rw [hsmem]
    exact ⟨⟨hon, hin.2⟩, hmod, (h.loaded side pos hin).fair hon⟩
  held := by
    intro z hz side hon
    rw [htile, Nat.succ_mul, blockCells_add, Nat.zero_add] at hz
    rcases hz with hz | hz
    · exact Or.inl (h.held z hz side hon)
    · obtain ⟨t, ht, hlane⟩ := hz
      obtain ⟨hle, hin⟩ := lane_onTile ht hlane side
      have howner := Nat.mod_lt (cellPos side z - L.tileStart b s.tile side) L.cfg.blocksz_pos
      refine Or.inr ⟨_, howner, cellPos side z - L.tileStart b s.tile side, (htodo _ howner _ _ _).mpr
        ((mem_writeBack howner).mpr ⟨side, _, hon, rfl, hin, ?_⟩), ?_⟩
      · rw [Nat.add_sub_cancel' hle]
      · rw [hsmem]
        refine (h.offered z ⟨t, ht, hlane⟩ side hon).resolve_right ?_
        rintro ⟨t', ht', x, hx, -⟩
        rw [hempty t' ht'] at hx
        cases hx

include hper in
/-- **The tile is computed.** -/
theorem Computes.barrier (h : Computes L base m b s) (hphase : s.phase = .computing)
    (hempty : ∀ t < L.cfg.blocksz, (s.thread t).todo = []) (raw : RawTile K) :
    ∃ s', passBarrier L raw b s = some s' ∧ BlockInv L base m b s' := by
  have hcheck : needsCheckIfDone L.type = false := by
    rcases hper with hone | hindex
    · rw [hone]
      rfl
    · rw [hindex]
      rfl
  unfold passBarrier
  rw [hphase]
  dsimp only
  rw [hcheck, if_neg Bool.false_ne_true]
  refine ⟨_, rfl, ?_⟩
  unfold nextTile
  split
  · next hnext =>
      have hback : WritesBack L base m b (s.enter (s.tile + 1) .loading fun t =>
          writeBack L b s.tile t ++ initSmem L b (s.tile + 1) t) := by
        refine h.writesBack hempty rfl rfl fun t ht side pos g => ?_
        show _ ∈ writeBack L b s.tile t ++ initSmem L b (s.tile + 1) t ↔ _
        rw [List.mem_append, or_iff_left fun hx => ?_]
        obtain ⟨_, _, _, _, hx⟩ := (mem_initSmem ht).mp hx
        cases hx
      show Loads L base m b _
      refine { hback with
        before := h.before
        order := fun t ht => ?_
        loaded := fun side pos hin => Or.inl ?_ }
      · refine ⟨_, _, rfl, fun x hx => ?_, fun x hx => (mem_initSmem ht).mp hx⟩
        obtain ⟨side, pos, -, -, -, rfl⟩ := (mem_writeBack ht).mp hx
        exact ⟨side, pos, _, rfl⟩
      · exact List.mem_append_right _
          ((mem_initSmem (Nat.mod_lt _ L.cfg.blocksz_pos)).mpr ⟨side, pos, rfl, hin, rfl⟩)
  · next hnext =>
      have hback : WritesBack L base m b (s.enter (s.tile + 1) .finished (writeBack L b s.tile)) :=
        h.writesBack hempty rfl rfl fun t ht side pos g => Iff.rfl
      show Ends L base m b _
      refine { hback with
        stores := fun t ht x hx => ?_
        noTile := Bool.not_eq_true _ ▸ hnext }
      obtain ⟨side, pos, -, -, -, rfl⟩ := (mem_writeBack ht).mp hx
      exact ⟨side, pos, _, rfl⟩

/-! ## The launch -/

omit [Field K] in
theorem blockCells_zero (b row : ℕ) : blockCells L b row 0 = ∅ := by
  refine Set.eq_empty_of_forall_notMem fun z hz => ?_
  obtain ⟨t, -, hz⟩ := hz
  rw [rowsCells_zero] at hz
  exact hz

/-- Between two tiles at the start, nothing is found yet. -/
theorem writesBack_start (htile : s.tile = 0)
    (hstore : ∀ t < L.cfg.blocksz, ∀ side pos g, .store side pos g ∉ (s.thread t).todo) :
    WritesBack L base m b s where
  pending := fun t ht side pos g hx => absurd hx (hstore t ht side pos g)
  held := by
    intro z hz
    rw [htile, Nat.zero_mul, blockCells_zero] at hz
    exact absurd hz (Set.notMem_empty z)

/-- **Before the first turn.** -/
theorem launchInv_start (mem : GlobalMemory K) (raw : ℕ → ℕ → SCAMPThreadInfo K) (smem : ℕ → BlockSmem K) :
    LaunchInv L mem.profile (start L mem raw smem) where
  mem := ⟨fun _ _ _ _ => attains_refl, fun _ _ _ => rfl⟩
  block := by
    intro b _
    show BlockInv L mem.profile mem b (startBlock L b (raw b) (smem b))
    have hback : WritesBack L mem.profile mem b (startBlock L b (raw b) (smem b)) := by
      refine writesBack_start rfl fun t ht side pos g hx => ?_
      have hx : _ ∈ (if L.hasTile b 0 then initSmem L b 0 t else []) := hx
      split at hx
      · obtain ⟨_, _, _, _, hx⟩ := (mem_initSmem ht).mp hx
        cases hx
      · cases hx
    by_cases htile : L.hasTile b 0 = true
    · have htodo : ∀ t, ((startBlock L b (raw b) (smem b)).thread t).todo = initSmem L b 0 t := fun t => if_pos htile
      have hloads : Loads L mem.profile mem b (startBlock L b (raw b) (smem b)) := by
        refine { hback with
          before := fun t ht _ => Or.inl ⟨?_, ?_, fun i hi hin => ?_⟩
          order := fun t ht => ⟨[], _, htodo t, fun x hx => absurd hx List.not_mem_nil, fun x => (mem_initSmem ht).mp⟩
          loaded := fun side pos hin => Or.inl ?_ }
        · show _ = diagOf L b t + 0 * L.cfg.tileHeight
          rw [diagOf_eq, Nat.zero_mul]
          rfl
        · show 0 = 0 * L.cfg.tileHeight
          rw [Nat.zero_mul]
        · have hin : diagOf L b t + 0 * L.cfg.tileHeight + i < L.args.nX := hin
          rw [Nat.zero_mul, Nat.add_zero, diagOf_eq] at hin
          show (if i < L.cfg.diagsPerThread ∧ L.tileStart b 0 .a + t * L.cfg.diagsPerThread + i < L.args.nX then
            Dbl.num (L.cov (L.tileStart b 0 .a + t * L.cfg.diagsPerThread + i)) else _) =
              .num (covAt L.args L.cov (0 * L.cfg.tileHeight) (diagOf L b t + i))
          rw [if_pos ⟨hi, hin⟩, Nat.zero_mul, diagOf_eq]
          rfl
        · rw [htodo]
          exact (mem_initSmem (Nat.mod_lt _ L.cfg.blocksz_pos)).mpr ⟨side, pos, rfl, hin, rfl⟩
      unfold BlockInv
      rw [show (startBlock L b (raw b) (smem b)).phase = .loading from if_pos htile]
      exact hloads
    · have htodo : ∀ t, ((startBlock L b (raw b) (smem b)).thread t).todo = [] := fun t => if_neg htile
      have hends : Ends L mem.profile mem b (startBlock L b (raw b) (smem b)) := { hback with
        stores := fun t ht x hx => by
          rw [htodo] at hx
          cases hx
        noTile := Bool.not_eq_true _ ▸ htile }
      unfold BlockInv
      rw [show (startBlock L b (raw b) (smem b)).phase = .finished from if_neg htile]
      exact hends

section
variable {g g' : Grid K} {raw : ℕ → RawTile K}

/-- What a turn does to the launch, where it is one of block `b`. -/
theorem LaunchInv.update (h : LaunchInv L base g) {m : GlobalMemory K} {s : BlockState K} {b : ℕ}
    (hmem : MemFair L base m) (hgrows : Grows g.mem m) (hs : BlockInv L base m b s) :
    LaunchInv L base ⟨m, Function.update g.block b s⟩ where
  mem := hmem
  block := by
    intro b' hb'
    show BlockInv L base m b' (Function.update g.block b s b')
    by_cases heq : b' = b
    · subst heq
      rwa [Function.update_self]
    · rw [Function.update_of_ne heq]
      exact (h.block b' hb').grows hgrows

include hper hbase

/-- **A thread that has an access to make can make it.** -/
theorem access_ready (raw : ℕ → RawTile K) (h : LaunchInv L base g) (hb : b < numBlocks L.cfg L.dims) {t : ℕ} (ht : t < L.cfg.blocksz)
    {x : Access K} {rest : List (Access K)} (htodo : ((g.block b).thread t).todo = x :: rest) :
    ∃ next : GlobalMemory K × BlockSmem K × Checked K, turn L raw g (.access b t) =
        some ⟨next.1, Function.update g.block b ((g.block b).step t next.2.1 next.2.2 rest)⟩ ∧
      LaunchInv L base ⟨next.1, Function.update g.block b ((g.block b).step t next.2.1 next.2.2 rest)⟩ := by
  obtain ⟨next, hexec, hmem, hgrows, hnext⟩ := (h.block b hb).access hper hbase h.mem ht htodo
  refine ⟨next, ?_, h.update hmem hgrows hnext⟩
  simp only [turn]
  rw [if_pos ⟨hb, ht⟩, htodo]
  dsimp only
  rw [hexec]
  rfl

omit hbase in
/-- **A barrier opens** when all threads of the block are there. -/
theorem barrier_ready (raw : ℕ → RawTile K) (h : LaunchInv L base g) (hb : b < numBlocks L.cfg L.dims)
    (hempty : ∀ t < L.cfg.blocksz, ((g.block b).thread t).todo = []) (hgo : (g.block b).phase ≠ .finished) :
    ∃ s', passBarrier L (raw b) b (g.block b) = some s' ∧
      turn L raw g (.barrier b) = some ⟨g.mem, Function.update g.block b s'⟩ ∧
      LaunchInv L base ⟨g.mem, Function.update g.block b s'⟩ := by
  have hblock := h.block b hb
  obtain ⟨s', hpass, hnext⟩ : ∃ s', passBarrier L (raw b) b (g.block b) = some s' ∧ BlockInv L base g.mem b s' := by
    unfold BlockInv at hblock
    split at hblock
    · next hphase => exact hblock.barrier hper hphase hb hempty (raw b)
    · next hphase => exact hblock.barrier hper hphase hempty (raw b)
    · exact hblock.elim
    · next hphase => exact absurd hphase hgo
  refine ⟨s', hpass, ?_, h.update h.mem (fun _ _ _ hx => hx) hnext⟩
  simp only [turn]
  rw [if_pos ⟨hb, fun t ht => by rw [hempty t ht]; rfl⟩, hpass]
  rfl

/-- **Every turn keeps the invariant.** -/
theorem launchInv_turn (h : LaunchInv L base g) {x : Turn} (hturn : turn L raw g x = some g') :
    LaunchInv L base g' := by
  cases x with
  | access b t =>
      simp only [turn] at hturn
      split at hturn
      · next hin =>
          cases htodo : ((g.block b).thread t).todo with
          | nil =>
              rw [htodo] at hturn
              cases hturn
          | cons x rest =>
              obtain ⟨next, hready, hnext⟩ := access_ready hper hbase raw h hin.1 hin.2 htodo
              simp only [turn] at hready
              rw [if_pos hin, hturn] at hready
              obtain rfl := Option.some.inj hready
              exact hnext
      · cases hturn
  | barrier b =>
      simp only [turn] at hturn
      split at hturn
      · next hin =>
          have hempty : ∀ t < L.cfg.blocksz, ((g.block b).thread t).todo = [] := fun t ht =>
            List.length_eq_zero_iff.mp (hin.2 t ht)
          have hgo : (g.block b).phase ≠ .finished := by
            intro hphase
            unfold passBarrier at hturn
            rw [hphase] at hturn
            cases hturn
          obtain ⟨s', -, hready, hnext⟩ := barrier_ready hper raw h hin.1 hempty hgo
          simp only [turn] at hready
          rw [if_pos hin, hturn] at hready
          obtain rfl := Option.some.inj hready
          exact hnext
      · cases hturn

/-- **After any turns**, from a launch with the invariant. -/
theorem launchInv_run (h : LaunchInv L base g) {turns : List Turn} (hrun : run L raw g turns = some g') :
    LaunchInv L base g' :=
  invariant_of_run (I := LaunchInv L base) (fun _ _ _ hg hturn => launchInv_turn hper hbase hg hturn) hrun h

end

end

end DoTile

end SlidingWindow

end Scamp
