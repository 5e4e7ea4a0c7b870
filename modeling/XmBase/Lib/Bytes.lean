import Mathlib.Tactic.FinCases
import Mathlib.Data.Fintype.Basic
import Mathlib.Algebra.Order.Ring.Nat
/-!
# XmBase.Lib.Bytes

**Byte objects seen as little-endian 64-bit words.** `memcpy` between an object
of `size` bytes and an array of words is `toWords`/`ofWords`; copying in, with
the last word padded by zeros, and copying out again gives the object back
(`ofWords_eq`), for every `size`, multiples of eight or not.

A word on its own is the list of its eight bytes, and `memcpy` into a byte buffer
is read back with `slice`, there, below and above (`slice_memcpy_self`,
`slice_memcpy_of_le`, `slice_memcpy_of_ge`).
-/

namespace XmBase.Bytes

/-- The word whose bytes, lowest address first, are `b 0, …, b 7`. -/
def packWord (b : Fin 8 → UInt8) : UInt64 :=
  .ofNat ((b 0).toNat + 256 * ((b 1).toNat + 256 * ((b 2).toNat + 256 * ((b 3).toNat
    + 256 * ((b 4).toNat + 256 * ((b 5).toNat + 256 * ((b 6).toNat + 256 * (b 7).toNat)))))))

/-- The byte at offset `i` of a word. Offset zero is the lowest address and the least
significant byte. -/
def byteOf (w : UInt64) (i : Fin 8) : UInt8 := .ofNat (w.toNat / 256 ^ i.val)

/-- The bytes packed into a word do not overflow it. -/
theorem toNat_packWord (b : Fin 8 → UInt8) :
    (packWord b).toNat = (b 0).toNat + 256 * ((b 1).toNat + 256 * ((b 2).toNat
      + 256 * ((b 3).toNat + 256 * ((b 4).toNat + 256 * ((b 5).toNat + 256 * ((b 6).toNat
      + 256 * (b 7).toNat)))))) := by
  have hstep : ∀ (k : Fin 8) {y m : Nat}, y < m → (b k).toNat + 256 * y < 256 * m := by
    intro k y m hy
    have := (b k).toNat_lt
    omega
  unfold packWord
  rw [UInt64.toNat_ofNat']
  exact Nat.mod_eq_of_lt
    (hstep 0 (hstep 1 (hstep 2 (hstep 3 (hstep 4 (hstep 5 (hstep 6 (b 7).toNat_lt)))))))

/-- Packing eight bytes loses none of them. -/
theorem byteOf_packWord (b : Fin 8 → UInt8) (i : Fin 8) : byteOf (packWord b) i = b i := by
  -- a division by 256 drops the lowest byte, the remainder keeps it
  have hdiv : ∀ (k : Fin 8) (y j : Nat),
      ((b k).toNat + 256 * y) / 256 ^ (j + 1) = y / 256 ^ j := by
    intro k y j
    have hk : (b k).toNat / 256 = 0 := Nat.div_eq_of_lt (b k).toNat_lt
    rw [Nat.pow_succ', ← Nat.div_div_eq_div_mul, Nat.add_mul_div_left _ _ (by decide), hk,
      Nat.zero_add]
  have hmod : ∀ (k : Fin 8) (y : Nat), ((b k).toNat + 256 * y) / 256 ^ 0 % 256 = (b k).toNat := by
    intro k y
    rw [Nat.pow_zero, Nat.div_one, Nat.add_mul_mod_self_left, Nat.mod_eq_of_lt (b k).toNat_lt]
  have hlast : (b 7).toNat / 256 ^ 0 % 256 = (b 7).toNat := by
    rw [Nat.pow_zero, Nat.div_one, Nat.mod_eq_of_lt (b 7).toNat_lt]
  apply UInt8.toNat_inj.mp
  rw [byteOf, UInt8.toNat_ofNat', toNat_packWord]
  match i with
  | 0 => exact hmod 0 _
  | 1 => rw [show ((1 : Fin 8) : Nat) = 0 + 1 from rfl, hdiv]; exact hmod 1 _
  | 2 => rw [show ((2 : Fin 8) : Nat) = 1 + 1 from rfl, hdiv, hdiv]; exact hmod 2 _
  | 3 => rw [show ((3 : Fin 8) : Nat) = 2 + 1 from rfl, hdiv, hdiv, hdiv]; exact hmod 3 _
  | 4 => rw [show ((4 : Fin 8) : Nat) = 3 + 1 from rfl, hdiv, hdiv, hdiv, hdiv]; exact hmod 4 _
  | 5 => rw [show ((5 : Fin 8) : Nat) = 4 + 1 from rfl, hdiv, hdiv, hdiv, hdiv, hdiv]; exact hmod 5 _
  | 6 =>
      rw [show ((6 : Fin 8) : Nat) = 5 + 1 from rfl, hdiv, hdiv, hdiv, hdiv, hdiv, hdiv]
      exact hmod 6 _
  | 7 =>
      rw [show ((7 : Fin 8) : Nat) = 6 + 1 from rfl, hdiv, hdiv, hdiv, hdiv, hdiv, hdiv, hdiv]
      exact hlast

/-- The eight bytes of a word, lowest address first. -/
def wordBytes (w : UInt64) : List UInt8 := List.ofFn (byteOf w)

/-- The word whose bytes these are. -/
def ofWordBytes (bs : List UInt8) : UInt64 := packWord fun i => bs.getD i.val 0

@[simp] theorem length_wordBytes (w : UInt64) : (wordBytes w).length = 8 := List.length_ofFn

theorem packWord_byteOf (w : UInt64) : packWord (byteOf w) = w := by
  have hstep : ∀ k : Nat,
      w.toNat / 256 ^ k % 256 + 256 * (w.toNat / 256 ^ (k + 1)) = w.toNat / 256 ^ k := by
    intro k
    rw [Nat.pow_succ, ← Nat.div_div_eq_div_mul, Nat.mod_add_div]
  have hlast : w.toNat / 256 ^ 7 % 256 = w.toNat / 256 ^ 7 :=
    Nat.mod_eq_of_lt (Nat.div_lt_of_lt_mul w.toNat_lt)
  have hbyte : ∀ i : Fin 8, (byteOf w i).toNat = w.toNat / 256 ^ i.val % 256 := fun i =>
    UInt8.toNat_ofNat'
  apply UInt64.toNat_inj.mp
  rw [toNat_packWord]
  simp only [hbyte]
  show w.toNat / 256 ^ 0 % 256 + 256 * (w.toNat / 256 ^ 1 % 256 + 256 * (w.toNat / 256 ^ 2 % 256
    + 256 * (w.toNat / 256 ^ 3 % 256 + 256 * (w.toNat / 256 ^ 4 % 256 + 256 * (w.toNat / 256 ^ 5 % 256
    + 256 * (w.toNat / 256 ^ 6 % 256 + 256 * (w.toNat / 256 ^ 7 % 256))))))) = w.toNat
  rw [hlast, hstep 6, hstep 5, hstep 4, hstep 3, hstep 2, hstep 1, hstep 0, Nat.pow_zero, Nat.div_one]

@[simp] theorem ofWordBytes_wordBytes (w : UInt64) : ofWordBytes (wordBytes w) = w := by
  have h : (fun i : Fin 8 => (wordBytes w).getD i.val 0) = byteOf w := by
    funext i
    rw [List.getD_eq_getElem?_getD, wordBytes, List.getElem?_ofFn, dif_pos i.isLt, Option.getD_some]
  rw [ofWordBytes, h, packWord_byteOf]

/-- Word `i` of an object copied into a zero-filled word array. -/
def toWords {size : Nat} (v : Vector UInt8 size) (i : Nat) : UInt64 :=
  packWord fun b => v[8 * i + b.val]?.getD 0

/-- The first `size` bytes of a word array. -/
def ofWords {size : Nat} (ws : List UInt64) : Vector UInt8 size :=
  .ofFn fun b => byteOf (ws.getD (b.val / 8) 0) ⟨b.val % 8, Nat.mod_lt _ (by omega)⟩

/-- **Round trip.** A word array that agrees with the staged object on the words that cover
it copies out to the object. Only `size` bytes are read, so the padding of the last word
does not matter. -/
theorem ofWords_eq {size : Nat} {v : Vector UInt8 size} {ws : List UInt64}
    (h : ∀ i, 8 * i < size → ws[i]? = some (toWords v i)) : ofWords ws = v := by
  apply Vector.ext
  intro b hb
  have hi : 8 * (b / 8) < size := by omega
  have hbyte : 8 * (b / 8) + b % 8 = b := by omega
  simp only [ofWords, Vector.getElem_ofFn, List.getD_eq_getElem?_getD, h _ hi, Option.getD_some,
    toWords, byteOf_packWord, hbyte, Vector.getElem?_eq_getElem hb]

example : ofWords [toWords #v[1, 2, 255] 0] = (#v[1, 2, 255] : Vector UInt8 3) := by decide

/-! ### Byte buffers

Copies into a buffer, and how a slice of the buffer looks behind one: at the target, below
and above it. Programs that pack fields into a record are verified with these three alone. -/

variable {n : Nat}

/-- Copy `src` into `buf` at `off`. -/
def memcpy (buf : Vector UInt8 n) (off : Nat) (src : List UInt8) : Vector UInt8 n :=
  .ofFn fun i => if off ≤ i.val then src.getD (i.val - off) buf[i] else buf[i]

/-- The `len` bytes at `off`. -/
def slice (buf : Vector UInt8 n) (off len : Nat) : List UInt8 := (buf.toList.drop off).take len

theorem slice_add (buf : Vector UInt8 n) (off len len' : Nat) :
    slice buf off (len + len') = slice buf off len ++ slice buf (off + len) len' := by
  rw [slice, List.take_add, List.drop_drop]
  rfl

theorem slice_slice (buf : Vector UInt8 n) {off len : Nat} (total : Nat) (h : off + len ≤ total) :
    slice buf off len = ((slice buf 0 total).drop off).take len := by
  rw [slice, slice, List.drop_zero, List.drop_take, List.take_take, Nat.min_eq_left (by omega)]

theorem slice_memcpy_self (buf : Vector UInt8 n) {off : Nat} {src : List UInt8}
    (h : off + src.length ≤ n) : slice (memcpy buf off src) off src.length = src := by
  apply List.ext_getElem?
  intro i
  by_cases hi : i < src.length
  · have hn : off + i < n := by omega
    simp [slice, memcpy, List.getElem?_take_of_lt hi, List.getElem?_drop, hn, hi]
  · rw [List.getElem?_eq_none (by simp only [slice, List.length_take]; omega),
      List.getElem?_eq_none (by omega)]

/-- A copy leaves the bytes below its target alone. -/
theorem slice_memcpy_of_le (buf : Vector UInt8 n) {off off' len : Nat} (src : List UInt8)
    (h : off' + len ≤ off) : slice (memcpy buf off src) off' len = slice buf off' len := by
  apply List.ext_getElem?
  intro i
  by_cases hi : i < len
  · have hlt : ¬ off ≤ off' + i := by omega
    simp only [slice, memcpy, List.getElem?_take_of_lt hi, List.getElem?_drop, Vector.getElem?_toList]
    by_cases hn : off' + i < n
    · simp [hn, hlt]
    · rw [Vector.getElem?_eq_none (by omega), Vector.getElem?_eq_none (by omega)]
  · rw [List.getElem?_eq_none (by simp only [slice, List.length_take]; omega),
      List.getElem?_eq_none (by simp only [slice, List.length_take]; omega)]

/-- And the bytes above the copied ones. -/
theorem slice_memcpy_of_ge (buf : Vector UInt8 n) {off off' : Nat} (len : Nat) {src : List UInt8}
    (h : off + src.length ≤ off') : slice (memcpy buf off src) off' len = slice buf off' len := by
  apply List.ext_getElem?
  intro i
  by_cases hi : i < len
  · have hle : off ≤ off' + i := by omega
    have hout : src.length ≤ off' + i - off := by omega
    simp only [slice, memcpy, List.getElem?_take_of_lt hi, List.getElem?_drop, Vector.getElem?_toList]
    by_cases hn : off' + i < n
    · simp [hn, hle, hout]
    · rw [Vector.getElem?_eq_none (by omega), Vector.getElem?_eq_none (by omega)]
  · rw [List.getElem?_eq_none (by simp only [slice, List.length_take]; omega),
      List.getElem?_eq_none (by simp only [slice, List.length_take]; omega)]

end XmBase.Bytes
