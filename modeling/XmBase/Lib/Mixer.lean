import Mathlib.Algebra.Order.Ring.Nat
import Mathlib.Data.Nat.ModEq
import Mathlib.Data.Nat.Prime.Basic
/-!
# XmBase.Lib.Mixer

Steps of invertible word mixers, at any width: an exclusive or with a right shift of the
word itself, a product by an odd constant, and a counter that moves by an odd stride. Each
loses nothing, so a generator composed of them repeats a word only after all words.
-/

namespace XmBase.Mixer

variable {w : Nat}

/-- `x ^ (x >> k)`. -/
def xorShift (k : Nat) (x : BitVec w) : BitVec w := x ^^^ (x >>> k)

/-- The bits are recovered from the top down: a bit of `x` is the bit of the result and
a bit of `x` higher up. -/
theorem xorShift_injective {k : Nat} (hk : 0 < k) :
    Function.Injective (xorShift k : BitVec w → BitVec w) := by
  intro x y h
  have hbit (n : Nat) : ∀ i, w ≤ i + n → x.getLsbD i = y.getLsbD i := by
    -- `n` bounds the distance from the top bit
    induction n with
    | zero =>
        intro i hi
        rw [BitVec.getLsbD_of_ge x i hi, BitVec.getLsbD_of_ge y i hi]
    | succ n ih =>
        intro i hi
        have hxor := congrArg (fun v => v.getLsbD i) h
        simp only [xorShift, BitVec.getLsbD_xor, BitVec.getLsbD_ushiftRight] at hxor
        rw [ih (k + i) (by omega)] at hxor
        exact Bool.xor_left_inj.mp hxor
  exact BitVec.eq_of_getLsbD_eq fun i _ => hbit w i (Nat.le_add_left w i)

theorem coprime_two_pow {c : Nat} (hc : c % 2 = 1) : Nat.Coprime (2 ^ w) c :=
  Nat.Coprime.pow_left w (Nat.coprime_two_left.mpr (Nat.odd_iff.mpr hc))

theorem mul_odd_injective {c : BitVec w} (hc : c.toNat % 2 = 1) :
    Function.Injective (fun x : BitVec w => x * c) := by
  intro x y h
  have hmod : x.toNat * c.toNat ≡ y.toNat * c.toNat [MOD 2 ^ w] := by
    have := congrArg BitVec.toNat h
    rwa [BitVec.toNat_mul, BitVec.toNat_mul] at this
  have hxy : x.toNat ≡ y.toNat [MOD 2 ^ w] :=
    Nat.ModEq.cancel_right_of_coprime (coprime_two_pow hc) hmod
  exact BitVec.eq_of_toNat_eq (hxy.eq_of_lt_of_lt x.isLt y.isLt)

/-- A counter with an odd stride has the full period. The stride is invertible modulo
`2 ^ w`, so two multiples of it meet only a whole period apart. -/
theorem stride_injOn {g : BitVec w} (hg : g.toNat % 2 = 1) (s : BitVec w) {i j : Nat}
    (hi : i < 2 ^ w) (hj : j < 2 ^ w)
    (h : s + BitVec.ofNat w i * g = s + BitVec.ofNat w j * g) : i = j := by
  have hmul : BitVec.ofNat w i * g = BitVec.ofNat w j * g := by
    rwa [BitVec.add_right_inj] at h
  have hij := congrArg BitVec.toNat (mul_odd_injective hg hmul)
  rwa [BitVec.toNat_ofNat, BitVec.toNat_ofNat, Nat.mod_eq_of_lt hi, Nat.mod_eq_of_lt hj] at hij

end XmBase.Mixer
