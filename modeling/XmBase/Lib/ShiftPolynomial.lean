import XmBase.Lib.ShiftRegister
import Mathlib.Algebra.CharP.Two
import Mathlib.Algebra.Polynomial.Div
import Mathlib.Algebra.Polynomial.Monic
import Mathlib.Tactic.LinearCombination
/-!
# XmBase.Lib.ShiftPolynomial

**A shift register divides polynomials.** The cells of a register are the coefficients of
a polynomial over the field of two elements, the taps those of a generator without its
first term. One move of the register is a multiplication by `X` and at most one
subtraction of the generator, so a register that took in a whole message holds the
remainder of the message times `X ^ w` (`poly_run`).
-/

namespace XmBase.ShiftRegister

open Polynomial

variable {w : Nat}

/-- The polynomial with the bits of a word as coefficients. Cell `i` counted from the bottom
is the coefficient of `X ^ i`. -/
noncomputable def poly (s : BitVec w) : (ZMod 2)[X] :=
  ∑ i ∈ Finset.range w, C (bit (s.getLsbD i)) * X ^ i

/-- The polynomial with the bits of a message as coefficients, the first bit at the
highest power. -/
noncomputable def message (ds : List Bool) : (ZMod 2)[X] :=
  ∑ i ∈ Finset.range ds.length, C (bit (ds.getD i false)) * X ^ (ds.length - 1 - i)

/-- The generator that the taps spell. -/
noncomputable def generator (taps : BitVec w) : (ZMod 2)[X] := X ^ w + poly taps

/-! ### Words as polynomials

Exclusive or is addition, and a shift is a multiplication by `X` where no bit is lost. Only
the bit that leaves at the top needs a word of its own. -/

theorem coeff_poly (s : BitVec w) (i : Nat) : (poly s).coeff i = bit (s.getLsbD i) := by
  rw [poly, finsetSum_coeff]
  simp only [coeff_C_mul, coeff_X_pow, mul_ite, mul_one, mul_zero, Finset.sum_ite_eq,
    Finset.mem_range]
  split_ifs with h
  · rfl
  · rw [BitVec.getLsbD_of_ge s i (Nat.le_of_not_lt h), bit_false]

theorem degree_poly_lt (s : BitVec w) : (poly s).degree < w := by
  rw [degree_lt_iff_coeff_zero]
  intro i hi
  rw [coeff_poly, BitVec.getLsbD_of_ge s i hi, bit_false]

@[simp] theorem poly_zero : poly 0#w = 0 := by
  ext i
  rw [coeff_poly, BitVec.getLsbD_zero, bit_false, coeff_zero]

theorem poly_xor (a b : BitVec w) : poly (a ^^^ b) = poly a + poly b := by
  ext i
  rw [coeff_add, coeff_poly, coeff_poly, coeff_poly, BitVec.getLsbD_xor, bit_xor]

theorem poly_ite (d : Bool) (s : BitVec w) :
    poly (if d then s else 0#w) = C (bit d) * poly s := by
  cases d <;> simp

/-- Moving the cells up multiplies by `X`, up to the cell that leaves at the top. -/
theorem poly_shiftLeft (s : BitVec w) (hw : 0 < w) :
    poly (s <<< 1) = X * poly s + C (bit (s.getMsbD 0)) * X ^ w := by
  ext i
  rw [coeff_add, coeff_poly, coeff_C_mul, coeff_X_pow, BitVec.getLsbD_shiftLeft,
    BitVec.getMsbD_eq_getLsbD]
  cases i with
  | zero => simp [hw.ne]
  | succ i =>
      rw [coeff_X_mul, coeff_poly]
      rcases Nat.lt_trichotomy (i + 1) w with h | h | h
      · simp [h, h.ne]
      · have hi : w - 1 = i := by omega
        simp [hw, h, hi, CharTwo.add_self_eq_zero]
      · have hi : w ≤ i := by omega
        simp [h.ne', Nat.not_lt.mpr h.le, BitVec.getLsbD_of_ge s i hi]

/-! ### Moves as division steps

One move is one step of the school division: the register, times `X`, plus a multiple of the
generator. Over a whole message the multiples add up to a quotient that nobody needs to name
(`exists_poly_run`). -/

section

variable {taps : BitVec w}

theorem monic_generator (taps : BitVec w) : (generator taps).Monic :=
  monic_X_pow_add (degree_poly_lt taps)

theorem degree_generator (taps : BitVec w) : (generator taps).degree = w := by
  rw [generator, degree_add_eq_left_of_degree_lt, degree_X_pow]
  rw [degree_X_pow]
  exact degree_poly_lt taps

/-- A move takes the generator off at most once. -/
theorem poly_step (hw : 0 < w) (s : BitVec w) (d : Bool) :
    poly (step taps s d) + generator taps * C (bit (s.getMsbD 0) + bit d) =
      X * poly s + C (bit d) * X ^ w := by
  rw [step, shift, poly_xor, poly_xor, poly_ite, poly_ite, poly_shiftLeft s hw, generator, C_add]
  -- every other term stands twice
  have htop : C (bit (s.getMsbD 0)) * X ^ w + C (bit (s.getMsbD 0)) * X ^ w = (0 : (ZMod 2)[X]) :=
    CharTwo.add_self_eq_zero _
  have htaps (b : Bool) : C (bit b) * poly taps + C (bit b) * poly taps = 0 :=
    CharTwo.add_self_eq_zero _
  linear_combination htop + htaps (s.getMsbD 0) + htaps d

/-- One more coefficient at the low end. -/
theorem message_append_singleton (ds : List Bool) (d : Bool) :
    message (ds ++ [d]) = message ds * X + C (bit d) := by
  rw [message, List.length_append, List.length_singleton, Finset.sum_range_succ, message,
    Finset.sum_mul]
  congr 1
  · refine Finset.sum_congr rfl fun i hi => ?_
    have hlt := Finset.mem_range.mp hi
    have hexp : ds.length + 1 - 1 - i = ds.length - 1 - i + 1 := by omega
    rw [List.getD_append _ _ _ _ hlt, hexp, pow_succ, mul_assoc]
  · simp

/-- What the register holds differs from the message times `X ^ w` by a multiple of the
generator. -/
theorem exists_poly_run (hw : 0 < w) (ds : List Bool) :
    ∃ q, poly (run taps 0#w ds) + generator taps * q = message ds * X ^ w := by
  induction ds using List.reverseRecOn with
  | nil => exact ⟨0, by simp [message]⟩
  | append_singleton ds d ih =>
      obtain ⟨q, hq⟩ := ih
      refine ⟨X * q + C (bit ((run taps 0#w ds).getMsbD 0) + bit d), ?_⟩
      have hstep := @poly_step w taps hw (run taps 0#w ds) d
      rw [run_append, run_cons, run_nil, message_append_singleton]
      linear_combination hstep + X * hq

/-- **The register holds the remainder.** It has a smaller degree than the generator, so it
is the remainder and no other representative. -/
theorem poly_run (hw : 0 < w) (ds : List Bool) :
    poly (run taps 0#w ds) = (message ds * X ^ w) %ₘ generator taps := by
  obtain ⟨q, hq⟩ := @exists_poly_run w taps hw ds
  refine (div_modByMonic_unique q _ (monic_generator taps) ⟨hq, ?_⟩).2.symm
  rw [degree_generator]
  exact degree_poly_lt _

end

end XmBase.ShiftRegister
