import XmBase.Telemetry.Printf
/-!
# XmBase.Telemetry.FloatingArg

The `static_cast<double>` that `PackOne` (`telemetry/binding.hpp`) puts a floating point
argument through. The cast is the identity on the values that a `double` can hold
(`Floating.Is.toDouble_eq`), so a `float` and a `double` arrive as they are passed. A
`long double` is rounded to the nearest `double`, and to the even one of two.
-/

namespace XmBase.Telemetry

/-- A value of one of the types `float`, `double` and `long double`. A finite one is a
multiple of `2 ^ -16494`, which is the least positive value of the widest format in use for
`long double`, and is given in that unit; a NaN by the fraction it has as a `double`. -/
inductive Floating
  | finite (negative : Bool) (units : Nat)
  | inf (negative : Bool)
  | nan (negative : Bool) (fraction : Nat) (hpos : 0 < fraction) (hlt : fraction < 2 ^ 52)

/-! ### The cast

The exponent field of a `double` begins where its 52 bits of fraction end. So the field
and the fraction together count the values of the format from zero on, and a carry out of
the fraction goes where it belongs. -/

/-- `n / 2 ^ s`, to the nearest integer, and to the even one of two. -/
def roundHalfEven (n s : Nat) : Nat :=
  if 2 ^ s < 2 * (n % 2 ^ s) ∨ (2 * (n % 2 ^ s) = 2 ^ s ∧ n / 2 ^ s % 2 = 1) then n / 2 ^ s + 1
  else n / 2 ^ s

/-- The place of the last bit that is kept: there are 53, and none below `2 ^ -1074`. -/
def lastPlace (units : Nat) : Nat := max (units.log2 - 52) 15420

/-- Exponent field and fraction of the nearest `double`; an infinity if there is none. -/
def doubleMagnitude (units : Nat) : Nat :=
  min ((lastPlace units - 15420) * 2 ^ 52 + roundHalfEven units (lastPlace units)) (2047 * 2 ^ 52)

def signBit (negative : Bool) : Nat := if negative then 2 ^ 63 else 0

/-- `static_cast<double>(v)`: the bits. -/
def Floating.toDouble : Floating → UInt64
  | finite negative units => .ofNat (signBit negative + doubleMagnitude units)
  | inf negative => .ofNat (signBit negative + 2047 * 2 ^ 52)
  | nan negative fraction _ _ => .ofNat (signBit negative + 2047 * 2 ^ 52 + fraction)

/-- The `double` with these bits has the value. -/
def Floating.Is : Floating → UInt64 → Prop
  | finite negative units, bits =>
      Double.Finite bits ∧ Double.negative bits = negative ∧ Double.scaled bits * 2 ^ 15419 = units
  | inf negative, bits => bits.toNat = signBit negative + 2047 * 2 ^ 52
  | nan negative fraction _ _, bits => bits.toNat = signBit negative + 2047 * 2 ^ 52 + fraction

instance (bits : UInt64) : (x : Floating) → Decidable (x.Is bits)
  | .finite .. => inferInstanceAs (Decidable (_ ∧ _ ∧ _ = _))
  | .inf _ => inferInstanceAs (Decidable (_ = _))
  | .nan .. => inferInstanceAs (Decidable (_ = _))

/-! ### Values that a `double` can hold -/

/-- Nothing is rounded off a multiple. -/
theorem roundHalfEven_mul (n s : Nat) : roundHalfEven (n * 2 ^ s) s = n := by
  have hmod : n * 2 ^ s % 2 ^ s = 0 := Nat.mul_mod_left n (2 ^ s)
  have hdiv : n * 2 ^ s / 2 ^ s = n := Nat.mul_div_cancel n (Nat.two_pow_pos s)
  have hpos := Nat.two_pow_pos s
  rw [roundHalfEven, hmod, hdiv, if_neg (by omega)]

theorem lastPlace_le {n k : Nat} (hn : n < 2 ^ 53) (hk : 15420 ≤ k) : lastPlace (n * 2 ^ k) ≤ k := by
  refine max_le ?_ hk
  by_cases hzero : n * 2 ^ k = 0
  · rw [hzero]
    exact Nat.zero_le k
  · have hlt : n * 2 ^ k < 2 ^ (53 + k) := by
      rw [Nat.pow_add]
      exact Nat.mul_lt_mul_of_pos_right hn (Nat.two_pow_pos k)
    have := (Nat.log2_lt hzero).mpr hlt
    omega

/-- With 53 bits the place is exact. -/
theorem lastPlace_eq {n k : Nat} (hn : 2 ^ 52 ≤ n) (hlt : n < 2 ^ 53) (hk : 15420 ≤ k) :
    lastPlace (n * 2 ^ k) = k := by
  refine le_antisymm (lastPlace_le hlt hk) (le_max_of_le_left ?_)
  have hpos : n * 2 ^ k ≠ 0 :=
    Nat.ne_of_gt (Nat.mul_pos (by omega) (Nat.two_pow_pos k))
  have hle : 2 ^ (52 + k) ≤ n * 2 ^ k := by
    rw [Nat.pow_add]
    exact Nat.mul_le_mul_right _ hn
  have := (Nat.le_log2 hpos).mpr hle
  omega

/-- The fields of a `double`, put together. The word is determined by sign, exponent and
fraction. -/
theorem Double.toNat_eq (bits : UInt64) :
    bits.toNat = signBit (negative bits) + exponent bits * 2 ^ 52 + bits.toNat % 2 ^ 52 := by
  have hlt := bits.toNat_lt
  unfold signBit negative exponent
  simp only [decide_eq_true_eq]
  split <;> omega

/-- A finite `double` is the nearest to its own value. Nothing of it is below the last
place. -/
theorem doubleMagnitude_scaled {bits : UInt64} (h : Double.Finite bits) :
    doubleMagnitude (Double.scaled bits * 2 ^ 15419) =
      Double.exponent bits * 2 ^ 52 + bits.toNat % 2 ^ 52 := by
  have hfraction : bits.toNat % 2 ^ 52 < 2 ^ 52 := Nat.mod_lt _ (by decide)
  have hfinite : Double.exponent bits < 2047 := h
  rw [Double.scaled, Nat.mul_assoc, ← Nat.pow_add, doubleMagnitude]
  by_cases hsub : Double.exponent bits = 0
  · -- a subnormal: the last place is the least there is
    have hsig : Double.significand bits = bits.toNat % 2 ^ 52 := by
      rw [Double.significand, if_pos hsub, Nat.add_zero]
    obtain ⟨k, hk⟩ : ∃ k, k = 15420 := ⟨_, rfl⟩
    have hexp : max 1 (Double.exponent bits) + 15419 = k := by omega
    have hplace : lastPlace (bits.toNat % 2 ^ 52 * 2 ^ k) = k :=
      le_antisymm (lastPlace_le (hfraction.trans (by decide)) hk.ge) (hk.le.trans (le_max_right _ _))
    rw [hexp, hsig, hplace, roundHalfEven_mul, hsub, hk]
    omega
  · have hexp : max 1 (Double.exponent bits) + 15419 = Double.exponent bits + 15419 := by omega
    have hsig : Double.significand bits = bits.toNat % 2 ^ 52 + 2 ^ 52 := by
      rw [Double.significand, if_neg hsub]
    rw [hexp, hsig, lastPlace_eq (by omega) (by omega) (by omega), roundHalfEven_mul]
    omega

/-- **The cast keeps every value that a `double` can hold.** -/
theorem Floating.Is.toDouble_eq {x : Floating} {bits : UInt64} (h : x.Is bits) : x.toDouble = bits := by
  apply UInt64.toNat_inj.mp
  cases x with
  | finite negative units =>
      obtain ⟨hfinite, rfl, rfl⟩ := h
      have hbits := Double.toNat_eq bits
      have hlt := bits.toNat_lt
      rw [Floating.toDouble, doubleMagnitude_scaled hfinite, UInt64.toNat_ofNat', ← Nat.add_assoc,
        ← hbits, Nat.mod_eq_of_lt hlt]
  | inf negative =>
      have hlt := bits.toNat_lt
      rw [Floating.toDouble, UInt64.toNat_ofNat', ← h, Nat.mod_eq_of_lt hlt]
  | nan negative fraction =>
      have hlt := bits.toNat_lt
      rw [Floating.toDouble, UInt64.toNat_ofNat', ← h, Nat.mod_eq_of_lt hlt]

end XmBase.Telemetry
