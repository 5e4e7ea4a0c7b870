import XmBase.Lib.ShiftPolynomial
import XmBase.Serialization.Checksum
/-!
# XmBase.Serialization.CrcRemainder

What the two cyclic checks of `include/xmbase/serialization/checksum.hpp` compute: the
remainder of the message times `X ^ 16`, or `X ^ 8`, by the generator the catalogue names,
the second one read in reverse. A message followed by its own check leaves no remainder.
-/

namespace XmBase.Serialization

open ShiftRegister Polynomial

/-! ### Generators -/

theorem generator_crc16Taps : generator crc16Taps = X ^ 16 + X ^ 12 + X ^ 5 + 1 := by
  have hpoly : poly crc16Taps = X ^ 12 + X ^ 5 + 1 := by
    simp only [poly, Finset.sum_range_succ, Finset.sum_range_zero, crc16Taps]
    simp [bit]
    ring
  rw [generator, hpoly]
  ring

theorem generator_crc8Taps : generator crc8Taps = X ^ 8 + X ^ 5 + X ^ 4 + 1 := by
  have hpoly : poly crc8Taps = X ^ 5 + X ^ 4 + 1 := by
    simp only [poly, Finset.sum_range_succ, Finset.sum_range_zero, crc8Taps]
    simp [bit]
    ring
  rw [generator, hpoly]
  ring

/-! ### Remainders -/

/-- `crc16_xmodem` is the remainder of the message, its bytes from the high end. -/
theorem poly_crc16Xmodem (m : List UInt8) :
    poly (crc16Xmodem m).toBitVec =
      (message (m.flatMap msbFirst) * X ^ 16) %ₘ (X ^ 16 + X ^ 12 + X ^ 5 + 1) := by
  rw [crc16Xmodem_eq_run, poly_run (by decide), generator_crc16Taps]
  rfl

/-- `crc8_maxim`, reversed, is the remainder of the message, its bytes from the low end. -/
theorem poly_crc8Maxim (m : List UInt8) :
    poly (crc8Maxim m).toBitVec.reverse =
      (message (m.flatMap lsbFirst) * X ^ 8) %ₘ (X ^ 8 + X ^ 5 + X ^ 4 + 1) := by
  rw [← crc8Register, crc8Maxim_eq_run, poly_run (by decide), generator_crc8Taps]
  rfl

/-! ### A message with its check -/

theorem crc16Xmodem_frame (m : List UInt8) : crc16Xmodem (frame crc16Trailer m) = 0 := by
  rw [← UInt16.toBitVec_inj, crc16Xmodem_eq_run, frame, BitOrder.bits_append, run_append]
  exact (run_eq_zero_iff (by decide) (by rw [BitOrder.length_bits]; rfl) _).mpr
    (loaded_crc16Trailer m)

theorem crc8Maxim_frame (m : List UInt8) : crc8Maxim (frame crc8Trailer m) = 0 := by
  have hregister : crc8Register (crc8Maxim (frame crc8Trailer m)) = 0#8 := by
    rw [crc8Maxim_eq_run, frame, BitOrder.bits_append, run_append]
    exact (run_eq_zero_iff (by decide) (by rw [BitOrder.length_bits]; rfl) _).mpr
      (loaded_crc8Trailer m)
  rw [crc8Register, BitVec.reverse_eq_zero_iff] at hregister
  exact UInt8.toBitVec_inj.mp hregister

/-- **The loops compute the remainders they name**: the message, times `X ^ 16` or `X ^ 8`,
by the generator of the catalogue, where CRC-8 has both the bits of the bytes and the
register in reverse. So every message followed by its check has the check zero. -/
theorem crc_remainders (m : List UInt8) :
    poly (crc16Xmodem m).toBitVec =
        (message (m.flatMap msbFirst) * X ^ 16) %ₘ (X ^ 16 + X ^ 12 + X ^ 5 + 1) ∧
      poly (crc8Maxim m).toBitVec.reverse =
        (message (m.flatMap lsbFirst) * X ^ 8) %ₘ (X ^ 8 + X ^ 5 + X ^ 4 + 1) ∧
      crc16Xmodem (m ++ [(crc16Xmodem m >>> 8).toUInt8, (crc16Xmodem m &&& 0xFF).toUInt8]) = 0 ∧
      crc8Maxim (m ++ [crc8Maxim m]) = 0 := by
  have hlow : (crc16Xmodem m &&& 0xFF).toUInt8 = (crc16Xmodem m).toUInt8 := by
    have hmask : (crc16Xmodem m).toNat &&& 255 = (crc16Xmodem m).toNat % 256 :=
      Nat.and_two_pow_sub_one_eq_mod _ 8
    rw [← UInt8.toNat_inj, UInt16.toNat_toUInt8, UInt16.toNat_toUInt8, UInt16.toNat_and]
    exact (congrArg (· % 256) hmask).trans (Nat.mod_mod _ _)
  refine ⟨poly_crc16Xmodem m, poly_crc8Maxim m, ?_, crc8Maxim_frame m⟩
  rw [hlow]
  exact crc16Xmodem_frame m

end XmBase.Serialization
