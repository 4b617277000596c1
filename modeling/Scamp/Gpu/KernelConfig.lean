import Scamp.Common.Types

/-!
# `Gpu.KernelConfig` — the launch parameters the autotuner chooses from

`kernel_config.cpp`: the variants of the kernel that the build compiles (`SCAMP_VARIANT_TUPLES`), the
configurations they give, the default one, and which configurations are supported. An index of the table is
checked by an `assert` in the source; here an index past its end gives a variant of zeros.
-/

namespace Scamp.Autotune

/-- The runtime-tunable launch parameters of the kernel. -/
structure KernelConfig where
  blocksz : ℤ
  blocksPerSm : ℤ
  diagsPerThread : ℤ
  unrolledRows : ℤ
  outerUnrolledRows : ℤ
  kernelTileIters : ℤ
deriving DecidableEq, Repr

/-- The geometry of a variant. -/
structure KernelVariantGeometry where
  blocksPerSm : ℤ
  diagsPerThread : ℤ
  unrolledRows : ℤ
  outerUnrolledRows : ℤ
  kernelTileIters : ℤ
  defaultBlockszSp : ℤ
deriving DecidableEq, Repr

/-- `kVariants`. The variants without unrolled rows are those of the shuffle kernel. -/
def kVariants : List KernelVariantGeometry :=
  [⟨1, 4, 4, 16, 16, 512⟩, ⟨2, 4, 4, 16, 16, 512⟩, ⟨5, 8, 0, 8, 32, 128⟩, ⟨8, 4, 0, 8, 16, 128⟩]

/-- `kNumKernelVariants`. -/
def kNumKernelVariants : ℕ := kVariants.length

/-- `GetKernelVariantGeometry`. -/
def getKernelVariantGeometry (i : ℕ) : KernelVariantGeometry := kVariants[i]?.getD ⟨0, 0, 0, 0, 0, 0⟩

/-- `DefaultBlockszForPrecision`. The quotient truncates, as C++ division does. -/
def defaultBlockszForPrecision (v : KernelVariantGeometry) : SCAMPPrecisionType → ℤ
  | .ultra | .double => v.defaultBlockszSp.tdiv 2
  | .single => v.defaultBlockszSp
  | _ => v.defaultBlockszSp.tdiv 2

/-- `GetKernelConfigForVariant`. -/
def getKernelConfigForVariant (i : ℕ) (precision : SCAMPPrecisionType) : KernelConfig :=
  let v := getKernelVariantGeometry i
  { blocksz := defaultBlockszForPrecision v precision
    blocksPerSm := v.blocksPerSm
    diagsPerThread := v.diagsPerThread
    unrolledRows := v.unrolledRows
    outerUnrolledRows := v.outerUnrolledRows
    kernelTileIters := v.kernelTileIters }

/-- `FindFirstVariantOfFamily`: the size of the table if there is none. -/
def findFirstVariantOfFamily (wantShfl : Bool) : ℕ :=
  kVariants.findIdx fun v => decide (v.unrolledRows = 0) == wantShfl

/-- `ProfileTypePrefersShfl`. -/
def profileTypePrefersShfl : SCAMPProfileType → Bool
  | .oneNNIndex | .sumThresh | .approxAllNeighbors | .matrixSummary => true
  | _ => false

/-- `GetDefaultKernelConfig`. -/
def getDefaultKernelConfig (profileType : SCAMPProfileType) (precision : SCAMPPrecisionType) : KernelConfig :=
  let wantShfl := profileTypePrefersShfl profileType
  let idx := findFirstVariantOfFamily wantShfl
  -- the preferred family may be missing from the table
  let idx := if idx = kVariants.length then findFirstVariantOfFamily (!wantShfl) else idx
  let idx := if idx = kVariants.length then 0 else idx
  getKernelConfigForVariant idx precision

/-- `IsSupportedKernelConfig`. -/
def isSupportedKernelConfig (cfg : KernelConfig) (_precision : SCAMPPrecisionType) : Bool :=
  kVariants.any fun v =>
    cfg.blocksPerSm == v.blocksPerSm && cfg.diagsPerThread == v.diagsPerThread &&
    cfg.unrolledRows == v.unrolledRows && cfg.outerUnrolledRows == v.outerUnrolledRows &&
    cfg.kernelTileIters == v.kernelTileIters &&
    (cfg.blocksz == 64 || cfg.blocksz == 128 || cfg.blocksz == 256 || cfg.blocksz == 512)

end Scamp.Autotune
