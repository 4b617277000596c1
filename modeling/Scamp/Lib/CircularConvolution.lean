import Mathlib.Analysis.Fourier.ZMod

/-!
# `Lib.CircularConvolution` — products of discrete Fourier transforms

The product of two transforms is the transform of the circular convolution (`dft_circularConv`). The transform of
real numbers has conjugate values at opposite frequencies (`conj_dft`), so half of it determines the rest, which
is how transforms of real data are stored (`hermitian`).

The transform itself is Mathlib's `ZMod.dft`. Nothing here depends on what is transformed.
-/

namespace Lib

open ZMod Finset

variable {N : ℕ} [NeZero N]

/-- The circular convolution of two functions. -/
def circularConv (a b : ZMod N → ℂ) : ZMod N → ℂ := fun k => ∑ j, a j * b (k - j)

/-- **The transform of a circular convolution** is the product of the transforms. -/
theorem dft_circularConv (a b : ZMod N → ℂ) : dft (circularConv a b) = fun k => dft a k * dft b k := by
  funext k
  calc dft (circularConv a b) k
      = ∑ x, ∑ j, stdAddChar (-(x * k)) * (a j * b (x - j)) := by
        simp only [dft_apply, circularConv, smul_eq_mul, mul_sum]
    _ = ∑ j, ∑ x, stdAddChar (-(x * k)) * (a j * b (x - j)) := sum_comm
    _ = ∑ j, ∑ x, stdAddChar (-((x + j) * k)) * (a j * b x) := by
        refine sum_congr rfl fun j _ => ?_
        refine (Fintype.sum_equiv (Equiv.addRight j) _ _ fun x => ?_).symm
        simp only [Equiv.coe_addRight, add_sub_cancel_right]
    _ = ∑ j, ∑ x, (stdAddChar (-(j * k)) * a j) * (stdAddChar (-(x * k)) * b x) := by
        refine sum_congr rfl fun j _ => sum_congr rfl fun x _ => ?_
        have hsplit : -((x + j) * k) = -(j * k) + -(x * k) := by ring
        rw [hsplit, AddChar.map_add_eq_mul]
        ring
    _ = dft a k * dft b k := by
        simp only [dft_apply, smul_eq_mul, sum_mul_sum]

/-- The inverse transform of a product of transforms. -/
theorem invDFT_mul (a b : ZMod N → ℂ) : dft.symm (fun k => dft a k * dft b k) = circularConv a b := by
  rw [← dft_circularConv, LinearEquiv.symm_apply_apply]

/-- **The transform of real numbers** at the opposite frequency. -/
theorem conj_dft (x : ZMod N → ℝ) (k : ZMod N) :
    (starRingEnd ℂ) (dft (fun j => (x j : ℂ)) k) = dft (fun j => (x j : ℂ)) (-k) := by
  simp only [dft_apply, smul_eq_mul, map_sum, map_mul, Complex.conj_ofReal]
  refine sum_congr rfl fun j _ => ?_
  congr 1
  rw [mul_neg, neg_neg, ← AddChar.map_neg_eq_conj, neg_neg]

/-! ## Half a transform -/

/-- The transform whose first half is given, at opposite frequencies by conjugation. -/
noncomputable def hermitian (X : ℕ → ℂ) : ZMod N → ℂ := fun f =>
  if f.val ≤ N / 2 then X f.val else (starRingEnd ℂ) (X (N - f.val))

/-- A transform that is conjugate at opposite frequencies is determined by its first half. -/
theorem hermitian_eq {X : ℕ → ℂ} {F : ZMod N → ℂ} (hF : ∀ f, (starRingEnd ℂ) (F f) = F (-f))
    (hX : ∀ n ≤ N / 2, X n = F (n : ZMod N)) : hermitian X = F := by
  funext f
  unfold hermitian
  split_ifs with hlow
  · rw [hX _ hlow, natCast_zmod_val]
  · have hlt := f.val_lt
    rw [hX _ (by omega), hF, Nat.cast_sub hlt.le, natCast_self, natCast_zmod_val, zero_sub, neg_neg]

/-- Back from a transform that is conjugate at opposite frequencies, the numbers are real. -/
theorem conj_invDFT {F : ZMod N → ℂ} (hF : ∀ f, (starRingEnd ℂ) (F f) = F (-f)) (k : ZMod N) :
    (starRingEnd ℂ) (dft.symm F k) = dft.symm F k := by
  simp only [invDFT_apply, smul_eq_mul, map_mul, map_inv₀, Complex.conj_natCast, map_sum, hF]
  congr 1
  refine Fintype.sum_equiv (Equiv.neg _) _ _ fun f => ?_
  rw [Equiv.neg_apply, neg_mul, AddChar.map_neg_eq_conj]

/-- A sum over the residues is one over their representatives. -/
theorem sum_val {E : Type*} [AddCommMonoid E] (g : ℕ → E) : ∑ x : ZMod N, g x.val = ∑ n ∈ range N, g n := by
  refine sum_nbij' (fun x : ZMod N => x.val) (fun n => (n : ZMod N)) (fun x _ => mem_range.mpr x.val_lt)
    (fun _ _ => mem_univ _) (fun x _ => natCast_zmod_val x) (fun n hn => ?_) fun _ _ => rfl
  exact val_cast_of_lt (mem_range.mp hn)

end Lib
