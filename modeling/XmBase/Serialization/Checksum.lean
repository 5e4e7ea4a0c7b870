import XmBase.Lib.ShiftRegister
import Mathlib.Tactic.NormNum.Prime
/-!
# XmBase.Serialization.Checksum

The cyclic checks of `include/xmbase/serialization/checksum.hpp` and the frames that
protocol drivers build with them: the payload, followed by its check. Byte by byte the
two loops are shift registers (`crc16Byte_eq_run`, `crc8Byte_eq_run`), the one taking
each byte from its high end, the other, held in reverse, from its low end. So
**a receiver that compares the check it computes with the one it receives rejects every
burst, every odd number of flipped bits and, in short frames, up to three flipped bits**
(`crc_detects`). The additive check of the bus servos sees the sum of the bytes and
nothing else (`inverted_sum_detects`).
-/

namespace XmBase.Serialization

open ShiftRegister

/-! ### The two loops -/

/-- The body of the inner loop of `crc8_maxim`. -/
def crc8Shift (crc : UInt8) : UInt8 :=
  if crc &&& 0x01 ≠ 0 then (crc >>> 1) ^^^ 0x8C else crc >>> 1

/-- The body of the outer loop. -/
def crc8Byte (crc byte : UInt8) : UInt8 := crc8Shift^[8] (crc ^^^ byte)

/-- CRC-8/MAXIM-DOW. -/
def crc8Maxim (data : List UInt8) : UInt8 := data.foldl crc8Byte 0x00

/-- The body of the inner loop of `crc16_xmodem`. -/
def crc16Shift (crc : UInt16) : UInt16 :=
  if crc &&& 0x8000 ≠ 0 then (crc <<< 1) ^^^ 0x1021 else crc <<< 1

/-- The body of the outer loop. -/
def crc16Byte (crc : UInt16) (byte : UInt8) : UInt16 := crc16Shift^[8] (crc ^^^ byte.toUInt16 <<< 8)

/-- CRC-16/XMODEM. -/
def crc16Xmodem (data : List UInt8) : UInt16 := data.foldl crc16Byte 0x0000

/-! ### Frames

The header only computes checks. A frame, and what its receiver does, is here what the
drivers that include it make of them: the check behind the payload, high byte first where it
has two. -/

/-- The check of a payload, high byte first. -/
def crc16Trailer (payload : List UInt8) : List UInt8 :=
  [(crc16Xmodem payload >>> 8).toUInt8, (crc16Xmodem payload).toUInt8]

def crc8Trailer (payload : List UInt8) : List UInt8 := [crc8Maxim payload]

theorem length_crc16Trailer (payload : List UInt8) : (crc16Trailer payload).length = 2 := rfl

theorem length_crc8Trailer (payload : List UInt8) : (crc8Trailer payload).length = 1 := rfl

/-- What is sent. -/
def frame (trailer : List UInt8 → List UInt8) (payload : List UInt8) : List UInt8 :=
  payload ++ trailer payload

/-- The receiver: the check of the received payload against the received trailer of `size`
bytes. A frame too short for its trailer is compared with what there is of it. -/
def accepts (size : Nat) (trailer : List UInt8 → List UInt8) (received : List UInt8) : Bool :=
  received.drop (received.length - size) == trailer (received.take (received.length - size))

/-- The bits set in `error` are flipped. -/
def flip (sent error : List UInt8) : List UInt8 := List.zipWith (· ^^^ ·) sent error

/-- The bits of a byte, the most significant first. -/
def msbFirst (byte : UInt8) : List Bool := (List.range 8).map byte.toBitVec.getMsbD

/-- The bits of a byte, the least significant first. -/
def lsbFirst (byte : UInt8) : List Bool := (List.range 8).map byte.toBitVec.getLsbD

@[simp] theorem length_msbFirst (byte : UInt8) : (msbFirst byte).length = 8 := by
  simp [msbFirst]

@[simp] theorem length_lsbFirst (byte : UInt8) : (lsbFirst byte).length = 8 := by
  simp [lsbFirst]

/-! ### A frame whose check is a register

Both checks are registers of `XmBase.Lib.ShiftRegister` that see the payload bit by bit, in
one order or the other. For such a check the trailer behind the payload empties the
register, so that the receiver's comparison is a test for an empty register, and by
linearity it is the error that decides. -/

theorem getD_zipWith_xor {ds es : List Bool} (h : ds.length = es.length) (i : Nat) :
    (List.zipWith xor ds es).getD i false = (ds.getD i false ^^ es.getD i false) := by
  induction ds generalizing es i with
  | nil =>
      obtain rfl := List.eq_nil_of_length_eq_zero h.symm
      rfl
  | cons d ds ih =>
      cases es with
      | nil => cases h
      | cons e es =>
          cases i with
          | zero => rfl
          | succ i => exact ih (Nat.succ.inj h) i

theorem getD_map_range (f : Nat → Bool) (k i : Nat) :
    ((List.range k).map f).getD i false = (decide (i < k) && f i) := by
  by_cases h : i < k <;> simp [List.getD_eq_getElem?_getD, h]

/-- The bits of a byte string in an order in which exclusive or is bitwise. The error is
xored to the frame bytewise, and the register must see it bitwise. -/
structure BitOrder where
  bitsOf : UInt8 → List Bool
  length_bitsOf : ∀ b, (bitsOf b).length = 8
  bitsOf_xor : ∀ a b, bitsOf (a ^^^ b) = List.zipWith xor (bitsOf a) (bitsOf b)

namespace BitOrder

variable (o : BitOrder)

/-- The bits of a byte string, in the order in which they are sent. -/
def bits (data : List UInt8) : List Bool := data.flatMap o.bitsOf

@[simp] theorem bits_append (a b : List UInt8) : o.bits (a ++ b) = o.bits a ++ o.bits b :=
  List.flatMap_append

theorem length_bits (data : List UInt8) : (o.bits data).length = 8 * data.length := by
  induction data with
  | nil => rfl
  | cons b data ih =>
      rw [bits, List.flatMap_cons, List.length_append, o.length_bitsOf, List.length_cons]
      rw [bits] at ih
      omega

theorem bits_flip {a b : List UInt8} (h : a.length = b.length) :
    o.bits (flip a b) = List.zipWith xor (o.bits a) (o.bits b) := by
  induction a generalizing b with
  | nil =>
      obtain rfl := List.eq_nil_of_length_eq_zero h.symm
      rfl
  | cons x a ih =>
      cases b with
      | nil => cases h
      | cons y b =>
          have hlen : (o.bitsOf x).length = (o.bitsOf y).length := by
            rw [o.length_bitsOf, o.length_bitsOf]
          show o.bitsOf (x ^^^ y) ++ o.bits (flip a b) =
            List.zipWith xor (o.bitsOf x ++ o.bits a) (o.bitsOf y ++ o.bits b)
          rw [o.bitsOf_xor, ih (Nat.succ.inj h), List.zipWith_append hlen]

/-- A loop over the bytes that is a register on each of them is a register on all. -/
theorem foldl_eq_run {κ : Type} {w : Nat} {taps : BitVec w} {register : κ → BitVec w}
    {next : κ → UInt8 → κ} (h : ∀ c b, register (next c b) = run taps (register c) (o.bitsOf b))
    (c : κ) (data : List UInt8) :
    register (data.foldl next c) = run taps (register c) (o.bits data) := by
  induction data generalizing c with
  | nil => rfl
  | cons b data ih =>
      rw [List.foldl_cons, ih, h]
      exact (run_append ..).symm

/-- An error that the receiver accepts leaves the register empty. -/
theorem run_error_of_accepts {n size : Nat} {taps : BitVec (n + 1)}
    (htaps : taps.getMsbD n = true) (hsize : 8 * size ≤ n + 1)
    {trailer : List UInt8 → List UInt8} (hlen : ∀ p, (trailer p).length = size)
    (htrailer : ∀ p, Loaded (run taps 0#(n + 1) (o.bits p)) (o.bits (trailer p)))
    {payload error : List UInt8} (herror : error.length = payload.length + size)
    (h : accepts size trailer (flip (frame trailer payload) error) = true) :
    run taps 0#(n + 1) (o.bits error) = 0#(n + 1) := by
  obtain ⟨e, e', rfl, he⟩ : ∃ e e', error = e ++ e' ∧ e.length = payload.length :=
    ⟨error.take payload.length, error.drop payload.length, (List.take_append_drop ..).symm,
      by rw [List.length_take]; omega⟩
  have he' : e'.length = size := by
    rw [List.length_append] at herror
    omega
  -- the receiver finds the payload and the trailer where the sender put them
  have hflip : flip (frame trailer payload) (e ++ e') = flip payload e ++ flip (trailer payload) e' :=
    List.zipWith_append he.symm
  have hpayload : (flip payload e).length = payload.length := by
    simp [flip, he]
  have hsize' : (flip (trailer payload) e').length = size := by
    simp [flip, hlen, he']
  have heq : flip (trailer payload) e' = trailer (flip payload e) := by
    rw [accepts, hflip, List.length_append, hsize', Nat.add_sub_cancel, List.drop_left,
      List.take_left] at h
    exact beq_iff_eq.mp h
  -- both sides of the comparison are loaded registers, and their difference is the error's
  have hload : Loaded (run taps 0#(n + 1) (o.bits e)) (o.bits e') := by
    intro i hi
    have hsent := htrailer payload i hi
    have hreceived := htrailer (flip payload e) i hi
    have hbits : (o.bits payload).length = (o.bits e).length := by
      rw [o.length_bits, o.length_bits, he]
    have hbits' : (o.bits (trailer payload)).length = (o.bits e').length := by
      rw [o.length_bits, o.length_bits, hlen, he']
    have hxor : run taps 0#(n + 1) (o.bits (flip payload e)) =
        run taps 0#(n + 1) (o.bits payload) ^^^ run taps 0#(n + 1) (o.bits e) := by
      rw [o.bits_flip he.symm, ← run_xor hbits, BitVec.xor_zero]
    rw [← heq, hxor, BitVec.getMsbD_xor, hsent, o.bits_flip (by rw [hlen, he']),
      getD_zipWith_xor hbits'] at hreceived
    exact Bool.xor_right_inj.mp hreceived
  rw [o.bits_append, run_append]
  refine (run_eq_zero_iff htaps ?_ _).mpr hload
  rw [o.length_bits, he']
  exact hsize

/-- So what the register notices, the receiver rejects. -/
theorem accepts_eq_false {n size limit : Nat} {taps : BitVec (n + 1)}
    (htaps : taps.getMsbD n = true) (hodd : parity taps = 1)
    (hlimit : Function.minimalPeriod (shift taps) taps = limit) (hsize : 8 * size ≤ n + 1)
    {trailer : List UInt8 → List UInt8} (hlen : ∀ p, (trailer p).length = size)
    (htrailer : ∀ p, Loaded (run taps 0#(n + 1) (o.bits p)) (o.bits (trailer p)))
    {payload error : List UInt8} (herror : error.length = payload.length + size)
    (h : Detectable (n + 1) limit (o.bits error)) :
    accepts size trailer (flip (frame trailer payload) error) = false := by
  rw [← Bool.not_eq_true]
  intro haccepts
  exact run_detectable_ne_zero htaps hodd hlimit h
    (o.run_error_of_accepts htaps hsize hlen htrailer herror haccepts)

end BitOrder

/-! ### CRC-16

Each byte is taken in from its most significant bit. The loop xors it into the top of the
register and then moves eight times, which is the same as eight bits one after the other. -/

def msbOrder : BitOrder where
  bitsOf := msbFirst
  length_bitsOf := length_msbFirst
  bitsOf_xor a b := by
    simp [msbFirst, List.zipWith_map, List.zipWith_self]

/-- The generator `x^16 + x^12 + x^5 + 1` without its first term. -/
def crc16Taps : BitVec 16 := 0x1021

theorem toBitVec_crc16Shift (crc : UInt16) :
    (crc16Shift crc).toBitVec = shift crc16Taps crc.toBitVec := by
  have hmask : (0x8000 : UInt16).toBitVec = BitVec.twoPow 16 15 := by decide
  have htop : crc &&& 0x8000 ≠ 0 ↔ crc.toBitVec.getMsbD 0 = true := by
    have hbit : crc.toBitVec.getMsbD 0 = crc.toBitVec.getLsbD 15 := rfl
    rw [Ne, ← UInt16.toBitVec_inj, UInt16.toBitVec_and, hmask, BitVec.and_twoPow, hbit]
    cases crc.toBitVec.getLsbD 15 <;> simp
  rw [crc16Shift, shift]
  by_cases h : crc.toBitVec.getMsbD 0 = true
  · rw [if_pos (htop.mpr h), if_pos h]
    simp [crc16Taps]
  · rw [if_neg (htop.not.mpr h), if_neg h]
    simp

theorem loaded_high_byte (byte : UInt8) :
    Loaded (byte.toUInt16 <<< 8).toBitVec (msbFirst byte) := by
  intro i hi
  rw [msbFirst, getD_map_range]
  by_cases h : i < 8
  · have hbit : 15 - i - 8 = 7 - i := by omega
    have hhigh : ¬ 15 - i < 8 := by omega
    have hlow : 15 - i < 16 ∧ 7 - i < 16 := by omega
    simp [BitVec.getMsbD, h, hi, hbit, hhigh, hlow]
  · simp [BitVec.getMsbD, h]
    omega

/-- The trailer is the register. What the sender appends is what the register holds, high
byte first. -/
theorem loaded_crc16 (crc : UInt16) :
    Loaded crc.toBitVec (msbOrder.bits [(crc >>> 8).toUInt8, crc.toUInt8]) := by
  intro i hi
  have hbits : msbOrder.bits [(crc >>> 8).toUInt8, crc.toUInt8] =
      msbFirst (crc >>> 8).toUInt8 ++ msbFirst crc.toUInt8 := by
    simp [BitOrder.bits, msbOrder]
  have hlen : (msbFirst (crc >>> 8).toUInt8).length = 8 := msbOrder.length_bitsOf _
  rw [hbits]
  by_cases h : i < 8
  · rw [List.getD_append _ _ _ _ (hlen ▸ h), msbFirst, getD_map_range]
    have hbit : 8 + (7 - i) = 15 - i := by omega
    simp [BitVec.getMsbD, h, hi, hbit]
    omega
  · rw [List.getD_append_right _ _ _ _ (hlen ▸ Nat.not_lt.mp h), hlen, msbFirst, getD_map_range]
    have hbit : 7 - (i - 8) = 15 - i := by omega
    have hlow : i - 8 < 8 ∧ 15 - i < 8 := by omega
    simp [BitVec.getMsbD, hi, hbit, hlow]

/-- A byte through the inner loop is eight bits through the register. -/
theorem crc16Byte_eq_run (crc : UInt16) (byte : UInt8) :
    (crc16Byte crc byte).toBitVec = run crc16Taps crc.toBitVec (msbFirst byte) := by
  have hsemi : Function.Semiconj UInt16.toBitVec crc16Shift (shift crc16Taps) := toBitVec_crc16Shift
  rw [run_eq_shift_load (by decide) (by simp) (loaded_high_byte byte), length_msbFirst,
    ← UInt16.toBitVec_xor]
  exact hsemi.iterate_right 8 _

theorem crc16Xmodem_eq_run (data : List UInt8) :
    (crc16Xmodem data).toBitVec = run crc16Taps 0#16 (msbOrder.bits data) :=
  msbOrder.foldl_eq_run crc16Byte_eq_run 0 data

-- the check value of the source's comment, for the text 123456789
example : crc16Xmodem [0x31, 0x32, 0x33, 0x34, 0x35, 0x36, 0x37, 0x38, 0x39] = 0x31C3 := by
  decide +kernel

theorem loaded_crc16Trailer (payload : List UInt8) :
    Loaded (run crc16Taps 0#16 (msbOrder.bits payload)) (msbOrder.bits (crc16Trailer payload)) := by
  rw [← crc16Xmodem_eq_run]
  exact loaded_crc16 _

/-! ### CRC-8

Reflected: bytes are taken in from the least significant bit, and the word the loop holds is
the register in reverse. Reversing it turns the right shift into a left one and `0x8C` into
the catalogue's `0x31`. -/

def lsbOrder : BitOrder where
  bitsOf := lsbFirst
  length_bitsOf := length_lsbFirst
  bitsOf_xor a b := by
    simp [lsbFirst, List.zipWith_map, List.zipWith_self]

/-- The generator `x^8 + x^5 + x^4 + 1` without its first term: `0x8C` reversed. -/
def crc8Taps : BitVec 8 := 0x31

/-- The register that `crc8_maxim` holds in reverse. -/
def crc8Register (crc : UInt8) : BitVec 8 := crc.toBitVec.reverse

theorem crc8Register_xor (a b : UInt8) :
    crc8Register (a ^^^ b) = crc8Register a ^^^ crc8Register b := by
  apply BitVec.eq_of_getMsbD_eq
  intro i _
  simp [crc8Register, BitVec.getMsbD_reverse]

theorem crc8Register_shiftRight (crc : UInt8) : crc8Register (crc >>> 1) = crc8Register crc <<< 1 := by
  apply BitVec.eq_of_getMsbD_eq
  intro i _
  simp [crc8Register, BitVec.getMsbD_reverse, Nat.add_comm]

theorem crc8Register_shift (crc : UInt8) :
    crc8Register (crc8Shift crc) = shift crc8Taps (crc8Register crc) := by
  have hmask : (0x01 : UInt8).toBitVec = BitVec.twoPow 8 0 := by decide
  have htop : crc &&& 0x01 ≠ 0 ↔ (crc8Register crc).getMsbD 0 = true := by
    rw [Ne, ← UInt8.toBitVec_inj, UInt8.toBitVec_and, hmask, BitVec.and_twoPow, crc8Register,
      BitVec.getMsbD_reverse]
    cases crc.toBitVec.getLsbD 0 with
    | false => exact iff_of_false (by decide) (by decide)
    | true => exact iff_of_true (by decide) rfl
  have htaps : crc8Register 0x8C = crc8Taps := by decide
  rw [crc8Shift, shift]
  by_cases h : (crc8Register crc).getMsbD 0 = true
  · rw [if_pos (htop.mpr h), if_pos h, crc8Register_xor, crc8Register_shiftRight, htaps]
  · rw [if_neg (htop.not.mpr h), if_neg h, crc8Register_shiftRight, BitVec.xor_zero]

/-- The register is its byte, low end first. -/
theorem loaded_crc8 (byte : UInt8) : Loaded (crc8Register byte) (lsbFirst byte) := by
  intro i hi
  rw [lsbFirst, getD_map_range, crc8Register, BitVec.getMsbD_reverse, decide_eq_true hi,
    Bool.true_and]

theorem crc8Byte_eq_run (crc byte : UInt8) :
    crc8Register (crc8Byte crc byte) = run crc8Taps (crc8Register crc) (lsbFirst byte) := by
  have hsemi : Function.Semiconj crc8Register crc8Shift (shift crc8Taps) := crc8Register_shift
  rw [run_eq_shift_load (by decide) (by simp) (loaded_crc8 byte), length_lsbFirst,
    ← crc8Register_xor]
  exact hsemi.iterate_right 8 _

theorem crc8Maxim_eq_run (data : List UInt8) :
    crc8Register (crc8Maxim data) = run crc8Taps 0#8 (lsbOrder.bits data) :=
  lsbOrder.foldl_eq_run crc8Byte_eq_run 0 data

example : crc8Maxim [0x31, 0x32, 0x33, 0x34, 0x35, 0x36, 0x37, 0x38, 0x39] = 0xA1 := by
  decide +kernel

theorem loaded_crc8Trailer (payload : List UInt8) :
    Loaded (run crc8Taps 0#8 (lsbOrder.bits payload)) (lsbOrder.bits (crc8Trailer payload)) := by
  have hbits : lsbOrder.bits (crc8Trailer payload) = lsbFirst (crc8Maxim payload) :=
    List.flatMap_singleton ..
  rw [← crc8Maxim_eq_run, hbits]
  exact loaded_crc8 _

/-! ### The periods -/

/-- `32767 = 7 * 31 * 151` moves, and no proper divisor of it. -/
theorem minimalPeriod_crc16 : Function.minimalPeriod (shift crc16Taps) crc16Taps = 32767 := by
  have hbottom : crc16Taps.getMsbD 15 = true := by decide
  have hperiod : Function.IsPeriodicPt (shift crc16Taps) 32767 1#16 :=
    (isPeriodicPt_number_iff hbottom (List.replicate 15 true)).mpr (by decide +kernel)
  have h7 : ¬ Function.IsPeriodicPt (shift crc16Taps) (32767 / 7) 1#16 :=
    (isPeriodicPt_number_iff hbottom [true, false, false, true, false, false, true, false, false,
      true, false, false, true]).not.mpr (by decide +kernel)
  have h31 : ¬ Function.IsPeriodicPt (shift crc16Taps) (32767 / 31) 1#16 :=
    (isPeriodicPt_number_iff hbottom [true, false, false, false, false, true, false, false, false,
      false, true]).not.mpr (by decide +kernel)
  have h151 : ¬ Function.IsPeriodicPt (shift crc16Taps) (32767 / 151) 1#16 :=
    (isPeriodicPt_number_iff hbottom [true, true, false, true, true, false, false,
      true]).not.mpr (by decide +kernel)
  refine minimalPeriod_taps (by decide) (minimalPeriod_eq hperiod ?_)
  intro q hq hdvd
  have hfactors : 32767 = 7 * (31 * 151) := by decide
  rw [hfactors, hq.dvd_mul, hq.dvd_mul, Nat.prime_dvd_prime_iff_eq hq (by norm_num),
    Nat.prime_dvd_prime_iff_eq hq (by norm_num), Nat.prime_dvd_prime_iff_eq hq (by norm_num)] at hdvd
  rcases hdvd with rfl | rfl | rfl
  · exact h7
  · exact h31
  · exact h151

theorem minimalPeriod_crc8 : Function.minimalPeriod (shift crc8Taps) crc8Taps = 127 := by
  have hbottom : crc8Taps.getMsbD 7 = true := by decide
  have hperiod : Function.IsPeriodicPt (shift crc8Taps) 127 1#8 :=
    (isPeriodicPt_number_iff hbottom (List.replicate 7 true)).mpr (by decide +kernel)
  refine minimalPeriod_taps (by decide) (minimalPeriod_eq hperiod ?_)
  intro q hq hdvd
  obtain rfl := (Nat.prime_dvd_prime_iff_eq hq (by norm_num)).mp hdvd
  exact (isPeriodicPt_number_iff hbottom [true]).not.mpr (by decide +kernel)

/-! ### Detection -/

/-- **What the two cyclic checks detect.** A frame with an error that is a burst no longer
than the check, or has an odd number of flipped bits, or, where the frame is no longer than
the period, up to three of them, is rejected. The payload does not matter, and the error may
lie anywhere in the frame, the check itself included. -/
theorem crc_detects :
    (∀ payload error : List UInt8, error.length = payload.length + 2 →
      Detectable 16 32767 (error.flatMap msbFirst) →
      accepts 2 crc16Trailer (flip (frame crc16Trailer payload) error) = false) ∧
    (∀ payload error : List UInt8, error.length = payload.length + 1 →
      Detectable 8 127 (error.flatMap lsbFirst) →
      accepts 1 crc8Trailer (flip (frame crc8Trailer payload) error) = false) := by
  constructor
  · intro payload error hlen hdetect
    exact msbOrder.accepts_eq_false (by decide) (by decide) minimalPeriod_crc16 (by decide)
      length_crc16Trailer loaded_crc16Trailer hlen hdetect
  · intro payload error hlen hdetect
    exact lsbOrder.accepts_eq_false (by decide) (by decide) minimalPeriod_crc8 (by decide)
      length_crc8Trailer loaded_crc8Trailer hlen hdetect

/-- Two flipped bits in the payload, and one in the payload with one in the trailer. -/
theorem crc_detects_two_bits :
    accepts 2 crc16Trailer (flip (frame crc16Trailer [0x31, 0x32]) [0x01, 0x80, 0x00, 0x00]) = false ∧
    accepts 1 crc8Trailer (flip (frame crc8Trailer [0x31, 0x32]) [0x10, 0x00, 0x02]) = false :=
  ⟨crc_detects.1 [0x31, 0x32] [0x01, 0x80, 0x00, 0x00] rfl
      (.inr (.inr ⟨by decide, by decide, by decide⟩)),
    crc_detects.2 [0x31, 0x32] [0x10, 0x00, 0x02] rfl
      (.inr (.inr ⟨by decide, by decide, by decide⟩))⟩

/-! ### The additive check

The servos' check is a sum, so it can be said exactly what it sees. It has no order, and
that is the difference to the two above. -/

/-- The bitwise negation of the sum of the bytes. -/
def checksumInvertedSum (data : List UInt8) : UInt8 := ~~~ data.foldl (fun sum byte => sum + byte) 0

def invertedSumTrailer (payload : List UInt8) : List UInt8 := [checksumInvertedSum payload]

/-- The sum of the bytes as numbers. -/
def byteSum (bytes : List UInt8) : Nat := (bytes.map UInt8.toNat).sum

@[simp] theorem byteSum_append (bytes bytes' : List UInt8) :
    byteSum (bytes ++ bytes') = byteSum bytes + byteSum bytes' := by
  simp [byteSum]

@[simp] theorem byteSum_singleton (byte : UInt8) : byteSum [byte] = byte.toNat := by
  simp [byteSum]

theorem toNat_foldl_add (sum : UInt8) (data : List UInt8) :
    (data.foldl (fun sum byte => sum + byte) sum).toNat = (sum.toNat + byteSum data) % 256 := by
  induction data generalizing sum with
  | nil => exact (Nat.mod_eq_of_lt sum.toNat_lt).symm
  | cons byte data ih =>
      rw [List.foldl_cons, ih, UInt8.toNat_add]
      simp only [byteSum, List.map_cons, List.sum_cons]
      omega

theorem toNat_checksumInvertedSum (data : List UInt8) :
    (checksumInvertedSum data).toNat = 255 - byteSum data % 256 := by
  rw [checksumInvertedSum, UInt8.toNat_not, toNat_foldl_add]
  simp

/-- Accepted are the frames whose bytes, the check among them, sum up to 255. -/
theorem accepts_invertedSum_iff (received : List UInt8) :
    accepts 1 invertedSumTrailer received = true ↔ byteSum received % 256 = 255 := by
  rcases received.eq_nil_or_concat with rfl | ⟨payload, check, rfl⟩
  · decide
  · have hcheck := check.toNat_lt
    rw [List.concat_eq_append]
    have htake : (payload ++ [check]).take ((payload ++ [check]).length - 1) = payload := by simp
    have hdrop : (payload ++ [check]).drop ((payload ++ [check]).length - 1) = [check] := by simp
    rw [accepts, htake, hdrop, invertedSumTrailer, beq_iff_eq, List.singleton_inj,
      ← UInt8.toNat_inj, toNat_checksumInvertedSum, byteSum_append, byteSum_singleton]
    omega

theorem byteSum_set {bytes : List UInt8} {i : Nat} (h : i < bytes.length) (byte : UInt8) :
    byteSum (bytes.set i byte) + bytes[i].toNat = byteSum bytes + byte.toNat := by
  induction bytes generalizing i with
  | nil => cases h
  | cons first bytes ih =>
      cases i with
      | zero =>
          simp only [byteSum, List.set_cons_zero, List.getElem_cons_zero, List.map_cons, List.sum_cons]
          omega
      | succ i =>
          have := ih (Nat.lt_of_succ_lt_succ h)
          simp only [byteSum, List.set_cons_succ, List.getElem_cons_succ, List.map_cons,
            List.sum_cons] at this ⊢
          omega

theorem byteSum_frame (payload : List UInt8) :
    byteSum (frame invertedSumTrailer payload) % 256 = 255 := by
  rw [frame, invertedSumTrailer, byteSum_append, byteSum_singleton, toNat_checksumInvertedSum]
  omega

/-- **What the additive check sees.** A received frame is accepted exactly when its bytes
sum up, modulo 256, to what the bytes that were sent sum up to: a change of one byte,
whatever it is, is rejected, and a reordering of the bytes is not. -/
theorem inverted_sum_detects (payload : List UInt8) :
    (∀ received, accepts 1 invertedSumTrailer received = true ↔
      byteSum received % 256 = byteSum (frame invertedSumTrailer payload) % 256) ∧
    (∀ i byte, (h : i < (frame invertedSumTrailer payload).length) →
      (frame invertedSumTrailer payload)[i] ≠ byte →
      accepts 1 invertedSumTrailer ((frame invertedSumTrailer payload).set i byte) = false) ∧
    ∀ received, received.Perm (frame invertedSumTrailer payload) →
      accepts 1 invertedSumTrailer received = true := by
  have hframe := byteSum_frame payload
  refine ⟨fun received => ?_, fun i byte h hne => ?_, fun received hperm => ?_⟩
  · rw [accepts_invertedSum_iff, hframe]
  · -- two bytes that differ do so modulo 256
    have hset := byteSum_set h byte
    have hlt := byte.toNat_lt
    have hlt' := (frame invertedSumTrailer payload)[i].toNat_lt
    have hne' : (frame invertedSumTrailer payload)[i].toNat ≠ byte.toNat := fun heq =>
      hne (UInt8.toNat_inj.mp heq)
    rw [← Bool.not_eq_true, accepts_invertedSum_iff]
    omega
  · have hsum : byteSum received = byteSum (frame invertedSumTrailer payload) :=
      (hperm.map UInt8.toNat).sum_eq
    rw [accepts_invertedSum_iff, hsum, hframe]

/-- One byte changed, and two swapped. -/
theorem inverted_sum_detects_servo :
    accepts 1 invertedSumTrailer ((frame invertedSumTrailer [0x01, 0x04, 0x02]).set 1 0x05) = false ∧
    accepts 1 invertedSumTrailer [0x04, 0x01, 0x02, 0xF8] = true :=
  ⟨(inverted_sum_detects [0x01, 0x04, 0x02]).2.1 1 0x05 (by decide) (by decide),
    (inverted_sum_detects [0x01, 0x04, 0x02]).2.2 [0x04, 0x01, 0x02, 0xF8] (by decide)⟩

end XmBase.Serialization
