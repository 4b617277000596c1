import Scamp.Core.Correctness.AbJoin
import Scamp.Distributed.Correctness.Merges
import Scamp.Distributed.Worker

/-!
# `Distributed.Correctness.Results` — the results of workers and the profile of a job

`PROFILE_TYPE_1NN_INDEX` over the real numbers. The join of a worker is a part of the join of the job: its
series are ranges of the job's, so that its correlations are those of the job at other positions
(`PartOf`). A profile of the job has collected some matches when each entry holds the best of its own
(`Collected`); the merge of a tile adds the matches that the tile found (`Collected.merge`).
-/

namespace Scamp

open Lib

/-! ## Parts of a join -/

/-- The series of a join are ranges of the series of another: cell `(0, 0)` is cell `(row, col)` there. -/
structure PartOf (part whole : Join ℝ) (row col : ℕ) : Prop where
  window : part.info.mpWindow = whole.info.mpWindow
  seriesA : ∀ i < part.info.fullTsLenA, part.seriesA.get i = whole.seriesA.get (col + i)
  seriesB : ∀ i < part.info.fullTsLenB, part.seriesB.get i = whole.seriesB.get (row + i)

/-- A window takes part wherever the series is cut. -/
theorem validWindow_congr {T T' : Vec (Sample ℝ)} {m i i' : ℕ} (h : ∀ j < m, T.get (i + j) = T'.get (i' + j)) :
    ValidWindow T m i ↔ ValidWindow T' m i' := by
  have hclean : ∀ j < m, cleanSeries T (i + j) = cleanSeries T' (i' + j) := by
    intro j hj
    unfold cleanSeries
    rw [h j hj]
  unfold ValidWindow FiniteWindow
  rw [ssd_eq_cdot, ssd_eq_cdot, cdot_congr m hclean hclean]
  refine and_congr_left' (forall_congr' fun j => ?_)
  constructor
  · intro hfin hj
    rw [← h j hj]
    exact hfin hj
  · intro hfin hj
    rw [h j hj]
    exact hfin hj

namespace PartOf
variable {part whole : Join ℝ} {row col : ℕ} (h : PartOf part whole row col)
include h

theorem window_seriesA {c : ℕ} (hc : c < part.info.numCols) {j : ℕ} (hj : j < whole.info.mpWindow) :
    part.seriesA.get (c + j) = whole.seriesA.get (col + c + j) := by
  have hlen := part.window_le_lenA
  have hm := h.window
  unfold OpInfo.numCols at hc
  rw [h.seriesA _ (by omega), Nat.add_assoc]

theorem window_seriesB {r : ℕ} (hr : r < part.info.numRows) {j : ℕ} (hj : j < whole.info.mpWindow) :
    part.seriesB.get (r + j) = whole.seriesB.get (row + r + j) := by
  have hlen := part.window_le_lenB
  have hm := h.window
  unfold OpInfo.numRows at hr
  rw [h.seriesB _ (by omega), Nat.add_assoc]

/-- **The correlations of a part** are those of the whole. -/
theorem pearson_eq {r c : ℕ} (hr : r < part.info.numRows) (hc : c < part.info.numCols) :
    part.pearson r c = whole.pearson (row + r) (col + c) := by
  have hA : ∀ j < whole.info.mpWindow, cleanSeries part.seriesA (c + j) = cleanSeries whole.seriesA (col + c + j) :=
    fun j hj => congrArg Sample.cleaned (h.window_seriesA hc hj)
  have hB : ∀ j < whole.info.mpWindow, cleanSeries part.seriesB (r + j) = cleanSeries whole.seriesB (row + r + j) :=
    fun j hj => congrArg Sample.cleaned (h.window_seriesB hr hj)
  unfold Join.pearson
  rw [h.window, ssd_eq_cdot, ssd_eq_cdot, ssd_eq_cdot, ssd_eq_cdot, cdot_congr _ hA hB, cdot_congr _ hA hA,
    cdot_congr _ hB hB]

/-- The cells of a part take part where they do in the whole. -/
theorem validCell_iff {r c : ℕ} (hr : r < part.info.numRows) (hc : c < part.info.numCols) :
    part.ValidCell r c ↔ whole.ValidCell (row + r) (col + c) := by
  unfold Join.ValidCell
  rw [h.window]
  exact and_congr (validWindow_congr fun j hj => h.window_seriesA hc hj)
    (validWindow_congr fun j hj => h.window_seriesB hr hj)

end PartOf

/-! ## Entries -/

/-- An entry does not depend on how its partners are described. -/
theorem NearestEntry.congr {type : SCAMPProfileType} {partner partner' : ℕ → Prop} {corr corr' : ℕ → ℝ}
    {e : MpEntry ℝ} (h : NearestEntry type partner corr e) (hpartner : ∀ j, partner' j ↔ partner j)
    (hcorr : ∀ j, partner j → corr' j = corr j) : NearestEntry type partner' corr' e := by
  obtain rfl : partner' = partner := funext fun j => propext (hpartner j)
  refine ⟨fun hsome => ?_, h.none⟩
  obtain ⟨j, hj, hv, hmax, hidx⟩ := h.best hsome
  refine ⟨j, hj, by rw [hv, hcorr j hj], fun j' hj' => ?_, hidx⟩
  rw [hcorr j hj, hcorr j' hj']
  exact hmax j' hj'

/-- The value of an entry, which is `-2` when there are no partners. -/
theorem NearestEntry.value {partner : ℕ → Prop} {corr : ℕ → ℝ} {e : MpEntry ℝ}
    (h : NearestEntry .oneNNIndex partner corr e) :
    ∃ v, e.value = .num v ∧ (∀ j, partner j → corr j ≤ v) ∧
      ((∃ j, partner j ∧ v = corr j ∧ e.index = UInt32.ofNat j) ∨
        (e = allocEntry .oneNNIndex ∧ v = -2 ∧ ∀ j, ¬partner j)) := by
  by_cases hsome : ∃ j, partner j
  · obtain ⟨j, hj, hv, hmax, hidx⟩ := h.best hsome
    exact ⟨corr j, hv, hmax, Or.inl ⟨j, hj, rfl, hidx rfl⟩⟩
  · have hnone : ∀ j, ¬partner j := fun j hj => hsome ⟨j, hj⟩
    have he := h.none hsome
    exact ⟨-2, by rw [he]; rfl, fun j hj => absurd hj (hnone j), Or.inr ⟨he, rfl, hnone⟩⟩

/-- **The merge of two entries** has the partners of both, those of the second moved by the offset. -/
theorem NearestEntry.maxEntry {partner found : ℕ → Prop} {corr corr' : ℕ → ℝ} {e x : MpEntry ℝ} {off : ℕ}
    (h : NearestEntry .oneNNIndex partner corr e) (hx : NearestEntry .oneNNIndex found corr' x)
    (hcorr : ∀ i, found i → corr' i = corr (off + i)) (hge : ∀ j, -1 ≤ corr j) :
    NearestEntry .oneNNIndex (fun j => partner j ∨ ∃ i, j = off + i ∧ found i) corr (maxEntry off e x) := by
  obtain ⟨v, hv, hle, hatt⟩ := h.value
  obtain ⟨w, hw, hle', hatt'⟩ := hx.value
  have hfound : ∀ i, found i → corr (off + i) ≤ w := fun i hi => hcorr i hi ▸ hle' i hi
  have hbound : -2 ≤ v := by
    rcases hatt with ⟨j, hj, rfl, -⟩ | ⟨-, rfl, -⟩
    · linarith [hge j]
    · exact le_refl _
  unfold Scamp.maxEntry
  rw [hv, hw, Dbl.gt_num]
  by_cases hlt : v < w
  · -- the found match is better than all before
    rw [if_pos (decide_eq_true hlt)]
    obtain ⟨i, hi, hwi, hidx⟩ : ∃ i, found i ∧ w = corr' i ∧ x.index = UInt32.ofNat i :=
      hatt'.resolve_right fun ⟨_, hw2, _⟩ => by linarith
    rw [hcorr i hi] at hwi
    refine ⟨fun _ => ⟨off + i, Or.inr ⟨i, rfl, hi⟩, congrArg Dbl.num hwi, ?_, fun _ => ?_⟩,
      fun hnone => absurd ⟨off + i, Or.inr ⟨i, rfl, hi⟩⟩ hnone⟩
    · rintro j (hj | ⟨i', rfl, hi'⟩)
      · exact (hle j hj).trans (hlt.le.trans hwi.le)
      · exact (hfound i' hi').trans hwi.le
    · dsimp only
      rw [hidx, Nat.add_comm off i, UInt32.ofNat_add]
  · -- the entry stays
    rw [if_neg (by simpa using hlt)]
    have hwv : w ≤ v := not_lt.mp hlt
    rcases hatt with ⟨j, hj, hvj, hidx⟩ | ⟨he, hv2, hnone⟩
    · refine ⟨fun _ => ⟨j, Or.inl hj, by rw [hv, hvj], ?_, fun _ => hidx⟩, fun hnone => absurd ⟨j, Or.inl hj⟩ hnone⟩
      rintro j' (hj' | ⟨i', rfl, hi'⟩)
      · exact (hle j' hj').trans hvj.le
      · exact (hfound i' hi').trans (hwv.trans hvj.le)
    · refine ⟨?_, fun _ => he⟩
      rintro ⟨j, hj | ⟨i, rfl, hi⟩⟩
      · exact absurd hj (hnone j)
      · have hcell := hfound i hi
        have hone := hge (off + i)
        linarith

/-! ## Profiles -/

/-- Each of the `n` entries of a profile holds the best of its own matches. -/
def Collected (n : ℕ) (found : ℕ → ℕ → Prop) (corr : ℕ → ℕ → ℝ) (p : SCAMPProto.Profile ℝ) : Prop :=
  ∃ entries, p = ⟨[.uint64 entries], .oneNNIndex⟩ ∧ entries.length = n ∧
    ∀ k < n, NearestEntry .oneNNIndex (found k) (corr k) (entries.getD k (allocEntry .oneNNIndex))

theorem Collected.congr {n : ℕ} {found found' : ℕ → ℕ → Prop} {corr : ℕ → ℕ → ℝ} {p : SCAMPProto.Profile ℝ}
    (h : Collected n found corr p) (hfound : ∀ k < n, ∀ j, found' k j ↔ found k j) :
    Collected n found' corr p := by
  obtain ⟨entries, hp, hlength, hentries⟩ := h
  exact ⟨entries, hp, hlength, fun k hk => (hentries k hk).congr (hfound k hk) fun _ _ => rfl⟩

/-- The loop of a merge, entry by entry. -/
theorem mergeInto_getD {α : Type} {op : α → α → α} {mpFull toMerge out : List α} {start len : ℕ} (d : α)
    (h : mergeInto op mpFull start len toMerge = some out) :
    (start + len ≤ mpFull.length ∧ len ≤ toMerge.length) ∧ out.length = mpFull.length ∧
      ∀ k < mpFull.length, out.getD k d =
        if start ≤ k ∧ k < start + len then op (mpFull.getD k d) (toMerge.getD (k - start) d) else mpFull.getD k d := by
  unfold mergeInto at h
  split at h
  · next hsizes =>
      obtain rfl := Option.some.inj h
      refine ⟨hsizes, by simp, fun k hk => ?_⟩
      rw [List.getD_eq_getElem?_getD, List.getElem?_mapIdx, List.getElem?_eq_getElem hk]
      simp only [Option.map_some, Option.getD_some, List.getD_eq_getElem?_getD, List.getElem?_eq_getElem hk]
      split
      · next hin =>
          have hlt : k - start < toMerge.length := by omega
          rw [List.getElem?_eq_getElem hlt]
          rfl
      · rfl
  · cases h

/-- **The merge of a tile adds its matches.** -/
theorem Collected.merge {n pos len off : ℕ} {found : ℕ → ℕ → Prop} {corr : ℕ → ℕ → ℝ}
    {p p' tile : SCAMPProto.Profile ℝ} {block : SCAMPProto.ProfileData ℝ} {rest : List (SCAMPProto.ProfileData ℝ)}
    (h : Collected n found corr p) (tileFound : ℕ → ℕ → Prop) (tileCorr : ℕ → ℕ → ℝ) (hmerge : mergeTileIntoFullProfile tile pos len p off = some p')
    (hdata : tile.data = block :: rest)
    (htile : len ≤ block.uint64Value.length → ∀ k < len, NearestEntry .oneNNIndex (tileFound k) (tileCorr k)
      (block.uint64Value.getD k (allocEntry .oneNNIndex)))
    (hcorr : ∀ k < len, ∀ i, tileFound k i → tileCorr k i = corr (pos + k) (off + i))
    (hge : ∀ k j, -1 ≤ corr k j) :
    Collected n (fun k j => found k j ∨ ∃ k' < len, ∃ i, k = pos + k' ∧ j = off + i ∧ tileFound k' i) corr p' := by
  obtain ⟨entries, rfl, hlength, hentries⟩ := h
  unfold mergeTileIntoFullProfile at hmerge
  rw [hdata] at hmerge
  obtain ⟨out, hout, rfl⟩ := Option.map_eq_some_iff.mp hmerge
  obtain ⟨⟨_, hlen⟩, hsize, hget⟩ := mergeInto_getD (allocEntry .oneNNIndex) hout
  refine ⟨out, rfl, hsize.trans hlength, fun k hk => ?_⟩
  have hgetk := hget k (hlength ▸ hk)
  rw [hgetk]
  split
  · next hin =>
      obtain ⟨i, rfl⟩ := Nat.exists_eq_add_of_le hin.1
      have hi : i < len := by omega
      rw [Nat.add_sub_cancel_left]
      refine ((hentries (pos + i) hk).maxEntry (htile hlen i hi) (hcorr i hi) (hge _)).congr (fun j => ?_)
        fun _ _ => rfl
      refine or_congr_right ⟨?_, ?_⟩
      · rintro ⟨k', hk', i', heq, rfl, hfound⟩
        obtain rfl : i = k' := by omega
        exact ⟨i', rfl, hfound⟩
      · rintro ⟨i', rfl, hfound⟩
        exact ⟨i, hi, i', rfl, rfl, hfound⟩
  · next hout =>
      refine (hentries k hk).congr (fun j => or_iff_left ?_) fun _ _ => rfl
      rintro ⟨k', hk', i, rfl, -, -⟩
      exact hout ⟨Nat.le_add_right _ _, by omega⟩

end Scamp
