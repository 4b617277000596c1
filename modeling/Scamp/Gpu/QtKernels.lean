import Scamp.Core.CpuStats

/-!
# `Gpu.QtKernels` — the first row of covariances on a GPU

`qt_kernels.cu` and `qt_helper.cpp`: the covariances of one subsequence with all others as a product of Fourier
transforms. The transforms are those of cuFFT, a parameter here. A kernel is what its threads do to the buffers;
how many there are goes through a `float`, which does not hold every length.

The buffers of the helper are scratch memory: what is in them when a tile starts is arbitrary. Calls of CUDA
that fail are left out.
-/

namespace Scamp

/-! ## Threads -/

/-- The conversion of an `int` to `float`: 24 bits, rounded to nearest, ties to even. -/
def toFloat (n : ℕ) : ℕ :=
  let ulp := 2 ^ (n.log2 - 23)
  let q := n / ulp
  let r := n % ulp
  if 2 * r < ulp ∨ (2 * r = ulp ∧ q % 2 = 0) then q * ulp else (q + 1) * ulp

/-- `fft_work_size`. -/
def fftWorkSize : ℕ := 512

/-- The threads launched for a length: blocks of `fft_work_size`, `ceil(size / (float)fft_work_size)` of them. -/
def launchedThreads (size : ℕ) : ℕ := (toFloat size + fftWorkSize - 1) / fftWorkSize * fftWorkSize

variable {K C : Type}

/-- `populate_reverse_pad`: the first subsequence of `Q`, reversed and centred, and zeros behind it. -/
def populateReversePad [Sub K] [Zero K] (Q QReversePad : Buffer K) (mean : Buffer K) (windowSize size : ℕ) :
    Buffer K := fun tid =>
  let mu := mean 0
  if tid < launchedThreads size then
    if tid < windowSize then Q (windowSize - 1 - tid) - mu
    else if tid < size then 0
    else QReversePad tid
  else QReversePad tid

/-- `elementwise_multiply_inplace`. -/
def elementwiseMultiplyInplace [Mul C] (A B : Buffer C) (size : ℕ) : Buffer C := fun tid =>
  if tid < launchedThreads size then if tid < size then A tid * B tid else B tid else B tid

/-- `normalized_aligned_dot_products`. -/
def normalizedAlignedDotProducts [Div K] (A : Buffer K) (divisor : K) (m n : ℕ) (QT : Buffer K) : Buffer K := fun a =>
  if a < launchedThreads n then if a < n then A (a + m - 1) / divisor else QT a else QT a

/-! ## The pipeline -/

/-- The transforms of one length: of real data to the first half of their transform, and back. -/
structure CuFft (K C : Type) where
  execD2Z : Buffer K → Buffer C
  execZ2D : Buffer C → Buffer K

/-- `qt_compute_helper::compute_QT`, for a helper of the given size. Its scratch buffer `Q_reverse_pad` holds what
    was left in it; the other two are overwritten. -/
def computeQT [Field K] [Mul C] (fft : CuFft K C) (size windowSize : ℕ) (QReversePad QT T Q qmeans : Buffer K) :
    Buffer K :=
  let n := size - windowSize + 1
  let cufftDataSize := size / 2 + 1
  let Tc := fft.execD2Z T
  let QReversePad := populateReversePad Q QReversePad qmeans windowSize size
  let Qc := fft.execD2Z QReversePad
  let Qc := elementwiseMultiplyInplace Tc Qc cufftDataSize
  let QReversePad := fft.execZ2D Qc
  normalizedAlignedDotProducts QReversePad (size : K) windowSize n QT

end Scamp
