import Scamp.Core.Correctness.Stats
import Scamp.Gpu.QtKernels
import Scamp.Lib.CircularConvolution

/-!
# `Gpu.Correctness.QtKernels` — both ways to the first row of covariances agree

The product of the transforms is the circular convolution of the series with the reversed, centred subsequence
(`execZ2D_spectrum`). At the positions that are read nothing wraps around, so it is a sum over one window, and
centring the subsequence alone is enough (`computeQT_eq`). All of this needs a thread for every entry. A `float` may
round a length down to a multiple of the block size, and then the last entries are left as they were
(`computeQT_agrees_iff`).
-/

namespace Scamp

open Lib Finset ZMod

/-! ## The transforms -/

/-- The transforms are the exact unnormalised discrete Fourier transforms of the length: forward of real data, for
    the first half of the frequencies, and back from the first half of a transform of real data. -/
structure IsDft (fft : CuFft ℝ ℂ) (size : ℕ) [NeZero size] : Prop where
  forward : ∀ (x : Buffer ℝ), ∀ f ≤ size / 2,
    fft.execD2Z x f = dft (fun j : ZMod size => (x j.val : ℂ)) (f : ZMod size)
  inverse : ∀ (X : Buffer ℂ) (F : ZMod size → ℂ), (∀ f, (starRingEnd ℂ) (F f) = F (-f)) →
    (∀ f ≤ size / 2, X f = F (f : ZMod size)) →
    ∀ k < size, (fft.execZ2D X k : ℂ) = size * dft.symm F (k : ZMod size)

section
variable {size : ℕ} [NeZero size]

/-- A buffer as a function of the residues. -/
def residues (x : Buffer ℝ) : ZMod size → ℂ := fun j => (x j.val : ℂ)

/-- The frequencies whose entry in the first half has a thread. -/
def Covered (size : ℕ) (f : ZMod size) : Prop := min f.val (size - f.val) < launchedThreads (size / 2 + 1)

instance (f : ZMod size) : Decidable (Covered size f) := inferInstanceAs (Decidable (_ < _))

theorem covered_neg (f : ZMod size) : Covered size (-f) ↔ Covered size f := by
  unfold Covered
  rw [ZMod.neg_val]
  split_ifs with hzero
  · rw [hzero, val_zero]
  · have hlt := f.val_lt
    rw [Nat.sub_sub_self hlt.le, min_comm]

theorem covered_natCast {f : ℕ} (hf : f ≤ size / 2) :
    Covered size (f : ZMod size) ↔ f < launchedThreads (size / 2 + 1) := by
  have hpos := Nat.pos_of_ne_zero (NeZero.ne size)
  unfold Covered
  rw [val_cast_of_lt (by omega), min_eq_left (by omega)]

/-- What the elementwise product makes of two transforms: the product where there are threads. -/
noncomputable def spectrum (T P : Buffer ℝ) : ZMod size → ℂ := fun f =>
  (if Covered size f then dft (residues T) f else 1) * dft (residues P) f

theorem conj_spectrum (T P : Buffer ℝ) (f : ZMod size) :
    (starRingEnd ℂ) (spectrum T P f) = spectrum T P (-f) := by
  unfold spectrum residues
  rw [map_mul, conj_dft, apply_ite (starRingEnd ℂ), conj_dft, map_one]
  simp only [covered_neg]

/-- **The transform back** of the elementwise product. -/
theorem execZ2D_spectrum {fft : CuFft ℝ ℂ} (hfft : IsDft fft size) (T P : Buffer ℝ) {k : ℕ} (hk : k < size) :
    (fft.execZ2D (elementwiseMultiplyInplace (fft.execD2Z T) (fft.execD2Z P) (size / 2 + 1)) k : ℂ) =
      size * dft.symm (spectrum T P) (k : ZMod size) := by
  refine hfft.inverse _ _ (conj_spectrum T P) (fun f hf => ?_) k hk
  unfold elementwiseMultiplyInplace spectrum
  rw [hfft.forward T f hf, hfft.forward P f hf]
  by_cases hcovered : f < launchedThreads (size / 2 + 1)
  · rw [if_pos hcovered, if_pos (by omega), if_pos ((covered_natCast hf).mpr hcovered)]
    rfl
  · rw [if_neg hcovered, if_neg (fun h => hcovered ((covered_natCast hf).mp h)), one_mul]
    rfl

/-- With a thread for every frequency it is a circular convolution. -/
theorem execZ2D_convolution {fft : CuFft ℝ ℂ} (hfft : IsDft fft size)
    (hcover : size / 2 + 1 ≤ launchedThreads (size / 2 + 1)) (T P : Buffer ℝ) {k : ℕ} (hk : k < size) :
    fft.execZ2D (elementwiseMultiplyInplace (fft.execD2Z T) (fft.execD2Z P) (size / 2 + 1)) k =
      size * ∑ x ∈ range size, T ((k + (size - x)) % size) * P x := by
  have hall : ∀ f : ZMod size, Covered size f := by
    intro f
    have hlt := f.val_lt
    unfold Covered
    omega
  have hspectrum : spectrum T P = fun f : ZMod size => dft (residues T) f * dft (residues P) f := by
    funext f
    unfold spectrum
    rw [if_pos (hall f)]
  have hconv : circularConv (residues T) (residues P) (k : ZMod size) =
      ∑ x : ZMod size, ((T ((k + (size - x.val)) % size) * P x.val : ℝ) : ℂ) := by
    unfold circularConv residues
    refine Fintype.sum_equiv (Equiv.subLeft (k : ZMod size)) _ _ fun j => ?_
    have hval : (k + (size - ((k : ZMod size) - j).val)) % size = j.val := by
      have hlt := ((k : ZMod size) - j).val_lt
      rw [← val_natCast, Nat.cast_add, Nat.cast_sub hlt.le, natCast_self, natCast_zmod_val, zero_sub, neg_sub,
        add_sub_cancel]
    rw [Equiv.subLeft_apply, hval, Complex.ofReal_mul]
  apply Complex.ofReal_injective
  rw [execZ2D_spectrum hfft T P hk, hspectrum, invDFT_mul, hconv,
    sum_val fun n => ((T ((k + (size - n)) % size) * P n : ℝ) : ℂ)]
  push_cast
  rfl

end

/-! ## Threads -/

/-- A float holds every length up to `2 ^ 24`. -/
theorem toFloat_of_le {n : ℕ} (h : n ≤ 2 ^ 24) : toFloat n = n := by
  unfold toFloat
  dsimp only
  rcases Nat.lt_or_eq_of_le h with hlt | rfl
  · by_cases hn : n = 0
    · subst hn
      rfl
    · have hlog : n.log2 < 24 := (Nat.log2_lt hn).mpr hlt
      have hulp : n.log2 - 23 = 0 := by omega
      rw [hulp, pow_zero, Nat.div_one, Nat.mod_one, mul_one]
      exact if_pos (Or.inl (by decide))
  · have hlog : Nat.log2 (2 ^ 24) = 24 := Nat.log2_two_pow
    rw [hlog]
    decide

/-- There is a thread for every entry of at most `2 ^ 24`. -/
theorem le_launchedThreads {n : ℕ} (h : n ≤ 2 ^ 24) : n ≤ launchedThreads n := by
  unfold launchedThreads fftWorkSize
  rw [toFloat_of_le h]
  omega

theorem launchedThreads_pos {n : ℕ} (h : 0 < n) : 0 < launchedThreads n := by
  have hfloat : 0 < toFloat n := by
    have hle : 2 ^ (n.log2 - 23) ≤ n :=
      (Nat.pow_le_pow_right (by decide) (Nat.sub_le _ _)).trans (Nat.log2_self_le h.ne')
    have hq : 0 < n / 2 ^ (n.log2 - 23) := Nat.div_pos hle (Nat.two_pow_pos _)
    unfold toFloat
    dsimp only
    split_ifs
    · exact Nat.mul_pos hq (Nat.two_pow_pos _)
    · exact Nat.mul_pos (Nat.succ_pos _) (Nat.two_pow_pos _)
  unfold launchedThreads fftWorkSize
  omega

/-! ## The first row -/

section
variable {size m : ℕ}

/-- With a thread for every entry the scratch buffer is overwritten. -/
theorem populateReversePad_of_covered {Q scratch qmeans : Buffer ℝ} (hcover : size ≤ launchedThreads size) {x : ℕ}
    (hx : x < size) : populateReversePad Q scratch qmeans m size x =
      if x < m then Q (m - 1 - x) - qmeans 0 else 0 := by
  unfold populateReversePad
  dsimp only
  rw [if_pos (by omega)]
  split_ifs <;> rfl

/-- The sum over the reversed subsequence is the sum over the window. -/
theorem sum_reversed {T Q P : Buffer ℝ} {mu : ℝ} {i : ℕ} (hi : i + m ≤ size)
    (hP : ∀ x < size, P x = if x < m then Q (m - 1 - x) - mu else 0) :
    ∑ x ∈ range size, T ((i + m - 1 + (size - x)) % size) * P x = ∑ j ∈ range m, T (i + j) * (Q j - mu) := by
  have hzero : ∀ x ∈ range size, x ∉ range m → T ((i + m - 1 + (size - x)) % size) * P x = 0 := by
    intro x hx hout
    rw [hP x (mem_range.mp hx), if_neg (fun h => hout (mem_range.mpr h)), mul_zero]
  have hsub : range m ⊆ range size := range_subset_range.mpr (by omega)
  rw [← sum_subset hsub hzero, ← sum_range_reflect (fun j => T (i + j) * (Q j - mu))]
  refine sum_congr rfl fun x hx => ?_
  have hxm := mem_range.mp hx
  -- nothing wraps around in front of the window
  have hindex : (i + m - 1 + (size - x)) % size = i + (m - 1 - x) := by
    rw [show i + m - 1 + (size - x) = i + (m - 1 - x) + size by omega, Nat.add_mod_right, Nat.mod_eq_of_lt (by omega)]
  rw [hindex, hP x (by omega), if_pos hxm]

/-- Centring one factor is enough. -/
theorem sum_centred (T Q : Buffer ℝ) (hm : 0 < m) (i : ℕ) :
    ∑ j ∈ range m, T (i + j) * (Q j - windowMean Q m 0) = cdot T Q m i 0 := by
  rw [cdot_eq T Q i 0 hm]
  unfold wdot windowMean windowSum
  simp only [Nat.zero_add, mul_sub, sum_sub_distrib, ← sum_mul]
  ring

variable [NeZero size] {fft : CuFft ℝ ℂ}

/-- **The pipeline**, with a thread for every entry. -/
theorem computeQT_eq (hfft : IsDft fft size) (hm : 0 < m) {T Q qmeans scratch QT : Buffer ℝ} {i : ℕ}
    (hi : i + m ≤ size) (hmean : qmeans 0 = windowMean Q m 0) (hpad : size ≤ launchedThreads size)
    (hmul : size / 2 + 1 ≤ launchedThreads (size / 2 + 1)) (hdot : i < launchedThreads (size - m + 1)) :
    computeQT fft size m scratch QT T Q qmeans i = cdot T Q m i 0 := by
  have hne : (size : ℝ) ≠ 0 := Nat.cast_ne_zero.mpr (NeZero.ne size)
  unfold computeQT normalizedAlignedDotProducts
  rw [if_pos hdot, if_pos (by omega), execZ2D_convolution hfft hmul _ _ (by omega),
    sum_reversed hi fun x hx => populateReversePad_of_covered hpad hx, mul_div_cancel_left₀ _ hne, hmean,
    sum_centred T Q hm]

/-! ## Entries without a thread -/

theorem cdot_zero_left (Q : Buffer ℝ) : cdot (fun _ => 0) Q m 0 0 = 0 := by
  simp [cdot, windowMean, windowSum]

theorem cdot_zero_right (T : Buffer ℝ) (i : ℕ) : cdot T (fun _ => 0) m i 0 = 0 := by
  simp [cdot, windowMean, windowSum]

/-- The indicator of one position. -/
def indicator (p : ℕ) : Buffer ℝ := fun x => if x = p then 1 else 0

/-- **A last entry of the padding without a thread** keeps what was in it, and it reaches the first result. -/
theorem computeQT_unpadded (hfft : IsDft fft size) (hm : 0 < m) (hsize : m ≤ size)
    (hmul : size / 2 + 1 ≤ launchedThreads (size / 2 + 1)) (hpad : launchedThreads size < size) (QT : Buffer ℝ) :
    computeQT fft size m (indicator (size - 1)) QT (indicator (m % size)) (fun _ => 0) (fun _ => 0) 0 = 1 := by
  have hne : (size : ℝ) ≠ 0 := Nat.cast_ne_zero.mpr (NeZero.ne size)
  have hpadded : ∀ x < size, populateReversePad (fun _ => 0) (indicator (size - 1)) (fun _ => 0) m size x =
      indicator (size - 1) x := by
    intro x hx
    unfold populateReversePad
    dsimp only
    split_ifs with hthread
    · rw [sub_zero, indicator, if_neg (by omega)]
    · rw [indicator, if_neg (by omega)]
    · rfl
  have hsum : ∑ x ∈ range size, indicator (m % size) ((0 + m - 1 + (size - x)) % size) *
      populateReversePad (fun _ => 0) (indicator (size - 1)) (fun _ => 0) m size x = 1 := by
    rw [sum_eq_single (size - 1)]
    · rw [hpadded _ (by omega), indicator, indicator, if_pos rfl, mul_one, if_pos]
      congr 1
      omega
    · intro x hx hother
      have hout : indicator (size - 1) x = 0 := if_neg hother
      rw [hpadded x (mem_range.mp hx), hout, mul_zero]
    · exact fun h => absurd (mem_range.mpr (by omega)) h
  unfold computeQT normalizedAlignedDotProducts
  rw [if_pos (launchedThreads_pos (by omega)), if_pos (by omega), execZ2D_convolution hfft hmul _ _ (by omega), hsum,
    mul_one, div_self hne]

/-- The subsequence `1, -1, 0, …`, whose mean is zero. -/
def alternating : Buffer ℝ := fun x => indicator 0 x - indicator 1 x

theorem windowMean_alternating (hm : 2 ≤ m) : windowMean alternating m 0 = 0 := by
  have hsum : windowSum alternating m 0 = 0 := by
    unfold windowSum alternating indicator
    simp only [Nat.zero_add, sum_sub_distrib, sum_ite_eq', mem_range]
    rw [if_pos (by omega), if_pos (by omega), sub_self]
  unfold windowMean
  rw [hsum, zero_div]

/-- That subsequence, reversed and padded. -/
def alternatingPad (m : ℕ) : Buffer ℝ := fun x => if x < m then alternating (m - 1 - x) else 0

theorem populateReversePad_alternating (size : ℕ) :
    populateReversePad alternating (alternatingPad m) (fun _ => 0) m size = alternatingPad m := by
  funext x
  unfold populateReversePad
  dsimp only
  split_ifs with hthread hm
  · rw [sub_zero, alternatingPad, if_pos hm]
  · rw [alternatingPad, if_neg hm]
  · rfl
  · rfl

/-- The transform of the reversed subsequence. -/
theorem dft_alternatingPad (hm : 2 ≤ m) (hsize : m ≤ size) (f : ZMod size) :
    dft (residues (alternatingPad m)) f =
      stdAddChar (-(((m - 1 : ℕ) : ZMod size) * f)) - stdAddChar (-(((m - 2 : ℕ) : ZMod size) * f)) := by
  have hentry : ∀ j : ZMod size, residues (alternatingPad m) j =
      (if j = ((m - 1 : ℕ) : ZMod size) then 1 else 0) - if j = ((m - 2 : ℕ) : ZMod size) then 1 else 0 := by
    intro j
    have hiff : ∀ p < size, (j = (p : ZMod size) ↔ j.val = p) := by
      intro p hp
      constructor
      · rintro rfl
        exact val_cast_of_lt hp
      · rintro rfl
        exact (natCast_zmod_val j).symm
    simp only [hiff (m - 1) (by omega), hiff (m - 2) (by omega)]
    unfold residues alternatingPad alternating indicator
    by_cases hlast : j.val = m - 1
    · rw [if_pos (by omega), if_pos (by omega), if_neg (by omega), if_pos hlast, if_neg (by omega)]
      simp
    · by_cases hnext : j.val = m - 2
      · rw [if_pos (by omega), if_neg (by omega), if_pos (by omega), if_neg hlast, if_pos hnext]
        simp
      · by_cases hin : j.val < m
        · rw [if_pos hin, if_neg (by omega), if_neg (by omega), if_neg hlast, if_neg hnext]
          simp
        · rw [if_neg hin, if_neg hlast, if_neg hnext]
          simp
  rw [dft_apply]
  simp only [hentry, smul_eq_mul, mul_sub, mul_ite, mul_one, mul_zero, sum_sub_distrib, sum_ite_eq', mem_univ, if_true]

/-- The real part of a root of unity other than one. -/
theorem re_stdAddChar_lt {f : ZMod size} (hf : f ≠ 0) : (stdAddChar f : ℂ).re < 1 := by
  have hnorm : ‖(stdAddChar f : ℂ)‖ = 1 := by
    rw [stdAddChar_apply]
    exact Circle.norm_coe _
  refine lt_of_le_of_ne (hnorm ▸ Complex.re_le_norm _) fun hre => hf ?_
  have him : (stdAddChar f : ℂ).im = 0 := by
    refine Complex.abs_re_eq_norm.mp ?_
    rw [hre, hnorm, abs_one]
  have hone : (stdAddChar f : ℂ) = 1 := Complex.ext hre him
  rw [← AddChar.map_zero_eq_one (stdAddChar (N := size))] at hone
  exact injective_stdAddChar hone

/-- **A frequency without a thread** is not multiplied, and it reaches the first result. -/
theorem computeQT_unmultiplied (hfft : IsDft fft size) (hm : 2 ≤ m) (hsize : m ≤ size)
    (hmul : launchedThreads (size / 2 + 1) < size / 2 + 1) (QT : Buffer ℝ) :
    computeQT fft size m (alternatingPad m) QT (fun _ => 0) alternating (fun _ => 0) 0 ≠ 0 := by
  have hne : (size : ℝ) ≠ 0 := Nat.cast_ne_zero.mpr (NeZero.ne size)
  have hterm : ∀ f : ZMod size, stdAddChar (f * ((0 + m - 1 : ℕ) : ZMod size)) •
      spectrum (fun _ => 0) (alternatingPad m) f = if Covered size f then 0 else 1 - stdAddChar f := by
    intro f
    have hzero : dft (residues fun _ => (0 : ℝ)) f = 0 := by
      simp [dft_apply, residues]
    unfold spectrum
    rw [hzero, dft_alternatingPad hm hsize]
    split_ifs
    · rw [zero_mul, smul_zero]
    · have hself : f * ((0 + m - 1 : ℕ) : ZMod size) + -(((m - 1 : ℕ) : ZMod size) * f) = 0 := by
        rw [Nat.zero_add]
        ring
      have hnext : f * ((0 + m - 1 : ℕ) : ZMod size) + -(((m - 2 : ℕ) : ZMod size) * f) = f := by
        rw [show 0 + m - 1 = m - 2 + 1 by omega, Nat.cast_add, Nat.cast_one]
        ring
      rw [one_mul, smul_eq_mul, mul_sub, ← AddChar.map_add_eq_mul, ← AddChar.map_add_eq_mul, hself, hnext,
        AddChar.map_zero_eq_one]
  have hsum : (fft.execZ2D (elementwiseMultiplyInplace (fft.execD2Z fun _ => 0) (fft.execD2Z (alternatingPad m))
      (size / 2 + 1)) (0 + m - 1) : ℂ) = ∑ f : ZMod size, if Covered size f then 0 else 1 - stdAddChar f := by
    have hnc : (size : ℂ) ≠ 0 := Nat.cast_ne_zero.mpr (NeZero.ne size)
    rw [execZ2D_spectrum hfft _ _ (by omega), invDFT_apply, smul_eq_mul, mul_inv_cancel_left₀ hnc]
    exact sum_congr rfl fun f _ => hterm f
  have hre := congrArg Complex.re hsum
  rw [Complex.ofReal_re, Complex.re_sum] at hre
  -- the middle frequency has no thread
  have hmid : ¬Covered size ((size / 2 : ℕ) : ZMod size) := by
    rw [covered_natCast (le_refl _)]
    omega
  have hmid0 : ((size / 2 : ℕ) : ZMod size) ≠ 0 := by
    intro hzero
    have hval := val_cast_of_lt (show size / 2 < size by omega)
    rw [hzero, val_zero] at hval
    omega
  have hle : ∀ f : ZMod size, 0 ≤ (if Covered size f then (0 : ℂ) else 1 - stdAddChar f).re := by
    intro f
    split_ifs
    · exact le_refl _
    · by_cases hf : f = 0
      · rw [hf, AddChar.map_zero_eq_one, sub_self, Complex.zero_re]
      · rw [Complex.sub_re, Complex.one_re]
        exact sub_nonneg.mpr (re_stdAddChar_lt hf).le
  have hpos : 0 < ∑ f : ZMod size, (if Covered size f then (0 : ℂ) else 1 - stdAddChar f).re := by
    refine sum_pos' (fun f _ => hle f) ⟨((size / 2 : ℕ) : ZMod size), mem_univ _, ?_⟩
    rw [if_neg hmid, Complex.sub_re, Complex.one_re]
    exact sub_pos.mpr (re_stdAddChar_lt hmid0)
  unfold computeQT normalizedAlignedDotProducts
  rw [if_pos (launchedThreads_pos (by omega)), if_pos (by omega), populateReversePad_alternating, hre]
  exact div_ne_zero hpos.ne' hne

/-! ## Agreement -/

/-- Both ways compute the same values, the centred dot products, at every position of a tile of length `t`,
    whatever is behind the tile and in the scratch memory. -/
def QtAgrees (fft : CuFft ℝ ℂ) (size m t : ℕ) : Prop :=
  ∀ T Q qmeans scratch QT QT' : Buffer ℝ, qmeans 0 = windowMean Q m 0 → ∀ i ≤ t - m,
    computeQT fft size m scratch QT T Q qmeans i = computeQTCPU size m QT' T Q i ∧
      computeQTCPU size m QT' T Q i =
        ∑ j ∈ range m, (T (i + j) - windowMean T m i) * (Q j - windowMean Q m 0)

omit [NeZero size] in
/-- The processor's values. -/
theorem computeQTCPU_sum (QT T Q : Buffer ℝ) {i : ℕ} (hi : i < size - m + 1) : computeQTCPU size m QT T Q i =
    ∑ j ∈ range m, (T (i + j) - windowMean T m i) * (Q j - windowMean Q m 0) := by
  rw [computeQTCPU_eq QT T Q hi]
  unfold cdot
  simp only [Nat.zero_add]

/-- **The GPU and the processor agree** exactly when every entry of the padding, every frequency and every position
    of the tile has a thread. -/
theorem computeQT_agrees_iff (fft : CuFft ℝ ℂ) (size m t : ℕ) [NeZero size] (hfft : IsDft fft size) (hm : 2 ≤ m)
    (hmt : m ≤ t) (hts : t ≤ size) :
    QtAgrees fft size m t ↔ size ≤ launchedThreads size ∧ size / 2 + 1 ≤ launchedThreads (size / 2 + 1) ∧
      t - m < launchedThreads (size - m + 1) := by
  have hcpu : ∀ QT T Q : Buffer ℝ, ∀ i ≤ t - m, computeQTCPU size m QT T Q i = cdot T Q m i 0 :=
    fun QT T Q i hi => computeQTCPU_eq QT T Q (by omega)
  constructor
  · intro hagrees
    have hmul : size / 2 + 1 ≤ launchedThreads (size / 2 + 1) := by
      by_contra hmul
      have hvalue := (hagrees (fun _ => 0) alternating (fun _ => 0) (alternatingPad m) (fun _ => 0) (fun _ => 0)
        (windowMean_alternating hm).symm 0 (Nat.zero_le _)).1
      rw [hcpu _ _ _ 0 (Nat.zero_le _), cdot_zero_left] at hvalue
      exact computeQT_unmultiplied hfft hm (by omega) (Nat.lt_of_not_le hmul) _ hvalue
    refine ⟨?_, hmul, ?_⟩
    · by_contra hpad
      have hmean : (0 : ℝ) = windowMean (fun _ => 0) m 0 := by simp [windowMean, windowSum]
      have hvalue := (hagrees (indicator (m % size)) (fun _ => 0) (fun _ => 0) (indicator (size - 1)) (fun _ => 0)
        (fun _ => 0) hmean 0 (Nat.zero_le _)).1
      rw [hcpu _ _ _ 0 (Nat.zero_le _), cdot_zero_right,
        computeQT_unpadded hfft (by omega) (by omega) hmul (Nat.lt_of_not_le hpad)] at hvalue
      exact one_ne_zero hvalue
    · by_contra hdot
      have hmean : (0 : ℝ) = windowMean (fun _ => 0) m 0 := by simp [windowMean, windowSum]
      have hvalue := (hagrees (fun _ => 0) (fun _ => 0) (fun _ => 0) (fun _ => 0) (fun _ => 1) (fun _ => 0) hmean
        (t - m) (le_refl _)).1
      -- the position keeps what was in it
      have hkept : computeQT fft size m (fun _ => 0) (fun _ => 1) (fun _ => 0) (fun _ => 0) (fun _ => 0) (t - m) = 1 := by
        unfold computeQT normalizedAlignedDotProducts
        exact if_neg hdot
      rw [hcpu _ _ _ _ (le_refl _), cdot_zero_right, hkept] at hvalue
      exact one_ne_zero hvalue
  · rintro ⟨hpad, hmul, hdot⟩ T Q qmeans scratch QT QT' hmean i hi
    refine ⟨?_, computeQTCPU_sum QT' T Q (by omega)⟩
    rw [hcpu _ _ _ i hi]
    exact computeQT_eq hfft (by omega) (by omega) hmean hpad hmul (by omega)

/-- The exact transforms of a length. -/
noncomputable def exactFft (size : ℕ) [NeZero size] : CuFft ℝ ℂ where
  execD2Z := fun x f => dft (fun j : ZMod size => (x j.val : ℂ)) (f : ZMod size)
  execZ2D := fun X k => ((size : ℂ) * dft.symm (hermitian X) (k : ZMod size)).re

theorem isDft_exactFft : IsDft (exactFft size) size := by
  refine ⟨fun _ _ _ => rfl, fun X F hF hX k _ => ?_⟩
  unfold exactFft
  dsimp only
  rw [hermitian_eq hF hX, ← Complex.conj_eq_iff_re, map_mul, conj_invDFT hF, Complex.conj_natCast]

/-- A tile of three samples, windows of two, transforms of length four. -/
theorem computeQT_agrees_four : QtAgrees (exactFft 4) 4 2 3 :=
  (computeQT_agrees_iff (exactFft 4) 4 2 3 isDft_exactFft (by decide) (by decide) (by decide)).mpr
    ⟨by decide, by decide, by decide⟩

/-- With transforms of length `2 ^ 25` the last of the `2 ^ 24 + 1` frequencies is not multiplied. -/
theorem computeQT_disagrees : ¬∀ (fft : CuFft ℝ ℂ) (size m t : ℕ) [NeZero size], IsDft fft size → 2 ≤ m → m ≤ t →
    t ≤ size → QtAgrees fft size m t := by
  intro hall
  have hvalue := (hall (exactFft 33554432) 33554432 100 200 isDft_exactFft (by decide) (by decide) (by decide)
    (fun _ => 0) alternating (fun _ => 0) (alternatingPad 100) (fun _ => 0) (fun _ => 0)
    (windowMean_alternating (by decide)).symm 0 (Nat.zero_le _)).1
  rw [computeQTCPU_eq _ _ _ (by decide), cdot_zero_left] at hvalue
  exact computeQT_unmultiplied isDft_exactFft (by decide) (by decide) (by decide) _ hvalue

end

end Scamp
