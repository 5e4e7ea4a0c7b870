import XmBase.Lib.Run
import Mathlib.Data.Vector.Basic
import Mathlib.Data.Nat.Digits.Lemmas
import Mathlib.Data.UInt
/-!
# XmBase.Serialization.ByteOrder

The loads and stores of `include/xmbase/serialization/byte_order.hpp`, on a buffer of `n`
bytes. The functions check no bounds, so an access outside the buffer, which has no
meaning in the source, is `none` here.

Every load and every store is about the bytes of one value in one order
(`Field.load_eq_some`, `Field.store_eq`). From these two:

* stores to the fields of a layout, in any order, leave in each field the value last
  stored there and every other byte as it was (`fields_hold_last_written`);
* two fields are independent exactly when they share no byte (`stores_independent_iff`);
* a reader with the other order gets the value back exactly when its bytes are a
  palindrome (`other_order_agrees_iff`).
-/

namespace XmBase.Serialization

variable {n : Nat}

/-! ### Loads -/

/-- `(hi << 8) | lo`. -/
def pack16 (hi lo : UInt8) : UInt16 := hi.toUInt16 <<< 8 ||| lo.toUInt16

/-- `(b3 << 24) | (b2 << 16) | (b1 << 8) | b0`. -/
def pack32 (b3 b2 b1 b0 : UInt8) : UInt32 :=
  b3.toUInt32 <<< 24 ||| b2.toUInt32 <<< 16 ||| b1.toUInt32 <<< 8 ||| b0.toUInt32

def loadBe16 (buf : Vector UInt8 n) (p : Nat) : Option UInt16 := do
  let b0 ← buf[p]?
  let b1 ← buf[p + 1]?
  return pack16 b0 b1

def loadBe32 (buf : Vector UInt8 n) (p : Nat) : Option UInt32 := do
  let b0 ← buf[p]?
  let b1 ← buf[p + 1]?
  let b2 ← buf[p + 2]?
  let b3 ← buf[p + 3]?
  return pack32 b0 b1 b2 b3

def loadLe16 (buf : Vector UInt8 n) (p : Nat) : Option UInt16 := do
  let b0 ← buf[p]?
  let b1 ← buf[p + 1]?
  return pack16 b1 b0

def loadLe32 (buf : Vector UInt8 n) (p : Nat) : Option UInt32 := do
  let b0 ← buf[p]?
  let b1 ← buf[p + 1]?
  let b2 ← buf[p + 2]?
  let b3 ← buf[p + 3]?
  return pack32 b3 b2 b1 b0

def loadBe16s (buf : Vector UInt8 n) (p : Nat) : Option Int16 := (loadBe16 buf p).map UInt16.toInt16

def loadBe32s (buf : Vector UInt8 n) (p : Nat) : Option Int32 := (loadBe32 buf p).map UInt32.toInt32

def loadLe16s (buf : Vector UInt8 n) (p : Nat) : Option Int16 := (loadLe16 buf p).map UInt16.toInt16

def loadLe32s (buf : Vector UInt8 n) (p : Nat) : Option Int32 := (loadLe32 buf p).map UInt32.toInt32

/-! ### Stores -/

/-- `p[i] = byte`. -/
def setByte (buf : Vector UInt8 n) (i : Nat) (byte : UInt8) : Option (Vector UInt8 n) :=
  if h : i < n then some (buf.set i byte) else none

def storeBe16 (buf : Vector UInt8 n) (p : Nat) (v : UInt16) : Option (Vector UInt8 n) := do
  let buf ← setByte buf p (v >>> 8).toUInt8
  setByte buf (p + 1) v.toUInt8

def storeBe32 (buf : Vector UInt8 n) (p : Nat) (v : UInt32) : Option (Vector UInt8 n) := do
  let buf ← setByte buf p (v >>> 24).toUInt8
  let buf ← setByte buf (p + 1) (v >>> 16).toUInt8
  let buf ← setByte buf (p + 2) (v >>> 8).toUInt8
  setByte buf (p + 3) v.toUInt8

def storeLe16 (buf : Vector UInt8 n) (p : Nat) (v : UInt16) : Option (Vector UInt8 n) := do
  let buf ← setByte buf p v.toUInt8
  setByte buf (p + 1) (v >>> 8).toUInt8

def storeLe32 (buf : Vector UInt8 n) (p : Nat) (v : UInt32) : Option (Vector UInt8 n) := do
  let buf ← setByte buf p v.toUInt8
  let buf ← setByte buf (p + 1) (v >>> 8).toUInt8
  let buf ← setByte buf (p + 2) (v >>> 16).toUInt8
  setByte buf (p + 3) (v >>> 24).toUInt8

/-! ### The numbers they stand for

Shifts and disjunctions of bytes are sums of powers of 256, so a word and its bytes
determine each other. This is the only place where bits are computed with. -/

theorem toNat_pack16 (hi lo : UInt8) : (pack16 hi lo).toNat = hi.toNat * 256 + lo.toNat := by
  have hhi := hi.toNat_lt
  have hlo := lo.toNat_lt
  have hor : hi.toNat <<< 8 ||| lo.toNat = hi.toNat <<< 8 + lo.toNat :=
    (Nat.shiftLeft_add_eq_or_of_lt hlo _).symm
  have hshift : hi.toNat <<< 8 = hi.toNat * 256 := Nat.shiftLeft_eq _ _
  have hmod : hi.toNat <<< 8 % 2 ^ 16 = hi.toNat <<< 8 := Nat.mod_eq_of_lt (by omega)
  calc (pack16 hi lo).toNat
      = hi.toNat <<< 8 % 2 ^ 16 ||| lo.toNat := by
        simp [pack16, UInt16.toNat_or, UInt16.toNat_shiftLeft]
    _ = hi.toNat * 256 + lo.toNat := by rw [hmod, hor, hshift]

theorem toNat_pack32 (b3 b2 b1 b0 : UInt8) :
    (pack32 b3 b2 b1 b0).toNat =
      b3.toNat * 256 ^ 3 + (b2.toNat * 256 ^ 2 + (b1.toNat * 256 + b0.toNat)) := by
  have h3 := b3.toNat_lt
  have h2 := b2.toNat_lt
  have h1 := b1.toNat_lt
  have h0 := b0.toNat_lt
  have s3 : b3.toNat <<< 24 = b3.toNat * 256 ^ 3 := Nat.shiftLeft_eq _ _
  have s2 : b2.toNat <<< 16 = b2.toNat * 256 ^ 2 := Nat.shiftLeft_eq _ _
  have s1 : b1.toNat <<< 8 = b1.toNat * 256 := Nat.shiftLeft_eq _ _
  -- each byte lies below the bits the ones above it are shifted to
  have o1 : b1.toNat <<< 8 ||| b0.toNat = b1.toNat <<< 8 + b0.toNat :=
    (Nat.shiftLeft_add_eq_or_of_lt h0 _).symm
  have o2 : b2.toNat <<< 16 ||| (b1.toNat <<< 8 + b0.toNat)
      = b2.toNat <<< 16 + (b1.toNat <<< 8 + b0.toNat) :=
    (Nat.shiftLeft_add_eq_or_of_lt (by omega) _).symm
  have o3 : b3.toNat <<< 24 ||| (b2.toNat <<< 16 + (b1.toNat <<< 8 + b0.toNat))
      = b3.toNat <<< 24 + (b2.toNat <<< 16 + (b1.toNat <<< 8 + b0.toNat)) :=
    (Nat.shiftLeft_add_eq_or_of_lt (by omega) _).symm
  have m3 : b3.toNat <<< 24 % 2 ^ 32 = b3.toNat <<< 24 := Nat.mod_eq_of_lt (by omega)
  have m2 : b2.toNat <<< 16 % 2 ^ 32 = b2.toNat <<< 16 := Nat.mod_eq_of_lt (by omega)
  have m1 : b1.toNat <<< 8 % 2 ^ 32 = b1.toNat <<< 8 := Nat.mod_eq_of_lt (by omega)
  calc (pack32 b3 b2 b1 b0).toNat
      = b3.toNat <<< 24 % 2 ^ 32 ||| (b2.toNat <<< 16 % 2 ^ 32
          ||| (b1.toNat <<< 8 % 2 ^ 32 ||| b0.toNat)) := by
        simp [pack32, UInt32.toNat_or, UInt32.toNat_shiftLeft, Nat.or_assoc]
    _ = _ := by rw [m3, m2, m1, o1, o2, o3, s3, s2, s1]

/-- Two bytes and the word they make. Each half of the word is one of the bytes, and there
is no other way to make it. -/
theorem pack16_eq_iff {hi lo : UInt8} {v : UInt16} :
    pack16 hi lo = v ↔ hi = (v >>> 8).toUInt8 ∧ lo = v.toUInt8 := by
  have hhi := hi.toNat_lt
  have hlo := lo.toNat_lt
  have hv := v.toNat_lt
  rw [← UInt16.toNat_inj, ← UInt8.toNat_inj, ← UInt8.toNat_inj, toNat_pack16]
  simp only [UInt16.toNat_toUInt8, UInt16.toNat_shiftRight, Nat.shiftRight_eq_div_pow]
  simp only [UInt16.reduceToNat, Nat.reduceMod, Nat.reducePow] at *
  omega

theorem pack32_eq_iff {b3 b2 b1 b0 : UInt8} {v : UInt32} :
    pack32 b3 b2 b1 b0 = v ↔ b3 = (v >>> 24).toUInt8 ∧ b2 = (v >>> 16).toUInt8 ∧
      b1 = (v >>> 8).toUInt8 ∧ b0 = v.toUInt8 := by
  have h3 := b3.toNat_lt
  have h2 := b2.toNat_lt
  have h1 := b1.toNat_lt
  have h0 := b0.toNat_lt
  have hv := v.toNat_lt
  rw [← UInt32.toNat_inj, ← UInt8.toNat_inj, ← UInt8.toNat_inj, ← UInt8.toNat_inj,
    ← UInt8.toNat_inj, toNat_pack32]
  simp only [UInt32.toNat_toUInt8, UInt32.toNat_shiftRight, Nat.shiftRight_eq_div_pow]
  simp only [UInt32.reduceToNat, Nat.reduceMod, Nat.reducePow] at *
  omega

/-! ### Fields

A driver names the place of a value on the wire by the function it calls there: an
offset, an order and a word. -/

inductive Order
  | be
  | le
deriving DecidableEq

inductive Word
  | u16
  | u32
  | s16
  | s32
deriving DecidableEq

/-- The type of the values. -/
def Word.Value : Word → Type
  | .u16 => UInt16
  | .u32 => UInt32
  | .s16 => Int16
  | .s32 => Int32

def Word.size : Word → Nat
  | .u16 | .s16 => 2
  | .u32 | .s32 => 4

/-- Where a value is, and how: what the name of a load or a store and its argument say. -/
structure Field where
  offset : Nat
  order : Order
  word : Word
deriving DecidableEq

/-- The offset after the field's last byte. -/
def Field.stop (f : Field) : Nat := f.offset + f.word.size

def Field.load (buf : Vector UInt8 n) : (f : Field) → Option f.word.Value
  | ⟨p, .be, .u16⟩ => loadBe16 buf p
  | ⟨p, .be, .u32⟩ => loadBe32 buf p
  | ⟨p, .be, .s16⟩ => loadBe16s buf p
  | ⟨p, .be, .s32⟩ => loadBe32s buf p
  | ⟨p, .le, .u16⟩ => loadLe16 buf p
  | ⟨p, .le, .u32⟩ => loadLe32 buf p
  | ⟨p, .le, .s16⟩ => loadLe16s buf p
  | ⟨p, .le, .s32⟩ => loadLe32s buf p

/-- There are no signed stores: a signed argument is converted to the unsigned type. -/
def Field.store (buf : Vector UInt8 n) : (f : Field) → f.word.Value → Option (Vector UInt8 n)
  | ⟨p, .be, .u16⟩, v => storeBe16 buf p v
  | ⟨p, .be, .u32⟩, v => storeBe32 buf p v
  | ⟨p, .be, .s16⟩, v => storeBe16 buf p (Int16.toUInt16 v)
  | ⟨p, .be, .s32⟩, v => storeBe32 buf p (Int32.toUInt32 v)
  | ⟨p, .le, .u16⟩, v => storeLe16 buf p v
  | ⟨p, .le, .u32⟩, v => storeLe32 buf p v
  | ⟨p, .le, .s16⟩, v => storeLe16 buf p (Int16.toUInt16 v)
  | ⟨p, .le, .s32⟩, v => storeLe32 buf p (Int32.toUInt32 v)

/-! ### The bytes of a value

One value has one list of bytes in each order, and with it every load and every store is the
same function: `Field.store_eq` and `Field.load_eq_some` are the two specs, and nothing
below looks at a single load or store again. -/

def lowFirst16 (v : UInt16) : List UInt8 := [v.toUInt8, (v >>> 8).toUInt8]

def lowFirst32 (v : UInt32) : List UInt8 :=
  [v.toUInt8, (v >>> 8).toUInt8, (v >>> 16).toUInt8, (v >>> 24).toUInt8]

/-- The bytes of a value, the least significant first. -/
def Word.lowFirst : (w : Word) → w.Value → List UInt8
  | .u16, v => lowFirst16 v
  | .u32, v => lowFirst32 v
  | .s16, v => lowFirst16 (Int16.toUInt16 v)
  | .s32, v => lowFirst32 (Int32.toUInt32 v)

/-- The bytes in the order of their addresses. -/
def Order.arrange : Order → List UInt8 → List UInt8
  | .be, bytes => bytes.reverse
  | .le, bytes => bytes

def Field.bytes (f : Field) (v : f.word.Value) : List UInt8 := f.order.arrange (f.word.lowFirst v)

@[simp] theorem Word.length_lowFirst (w : Word) (v : w.Value) : (w.lowFirst v).length = w.size := by
  cases w <;> rfl

@[simp] theorem Field.length_bytes (f : Field) (v : f.word.Value) :
    (f.bytes v).length = f.word.size := by
  obtain ⟨p, o, w⟩ := f
  cases o with
  | be => exact List.length_reverse.trans (w.length_lowFirst v)
  | le => exact w.length_lowFirst v

/-- The bytes are written one after the other. -/
def setBytes (buf : Vector UInt8 n) (p : Nat) : List UInt8 → Option (Vector UInt8 n)
  | [] => some buf
  | byte :: bytes => (setByte buf p byte).bind fun buf => setBytes buf (p + 1) bytes

/-- A store writes the bytes of its value. Signed or not, and in either order, this is all a
store does. -/
theorem Field.store_eq (buf : Vector UInt8 n) (f : Field) (v : f.word.Value) :
    f.store buf v = setBytes buf f.offset (f.bytes v) := by
  obtain ⟨p, o, w⟩ := f
  cases o <;> cases w <;>
    simp [Field.store, Field.bytes, Order.arrange, Word.lowFirst, lowFirst16, lowFirst32, setBytes,
      storeBe16, storeBe32, storeLe16, storeLe32, bind]

/-- The bytes at `p` and after are these. Places outside the buffer hold no byte. -/
def BytesAt (buf : Vector UInt8 n) (p : Nat) (bytes : List UInt8) : Prop :=
  ∀ i < bytes.length, buf[p + i]? = bytes[i]?

@[simp] theorem bytesAt_nil (buf : Vector UInt8 n) (p : Nat) : BytesAt buf p [] := by
  intro i hi
  cases hi

@[simp] theorem bytesAt_cons {buf : Vector UInt8 n} {p : Nat} {byte : UInt8} {bytes : List UInt8} :
    BytesAt buf p (byte :: bytes) ↔ buf[p]? = some byte ∧ BytesAt buf (p + 1) bytes := by
  constructor
  · intro h
    refine ⟨h 0 (Nat.succ_pos _), ?_⟩
    intro i hi
    have := h (i + 1) (Nat.succ_lt_succ hi)
    rwa [List.getElem?_cons_succ, show p + (i + 1) = p + 1 + i from by omega] at this
  · rintro ⟨h0, h⟩ i hi
    cases i with
    | zero => exact h0
    | succ i =>
        rw [List.getElem?_cons_succ, show p + (i + 1) = p + 1 + i from by omega]
        exact h i (Nat.lt_of_succ_lt_succ hi)

section Loads

variable {buf : Vector UInt8 n} {p : Nat}

theorem loadBe16_eq_some {v : UInt16} :
    loadBe16 buf p = some v ↔ BytesAt buf p (lowFirst16 v).reverse := by
  simp [loadBe16, lowFirst16, Option.bind_eq_some_iff, pack16_eq_iff]

theorem loadLe16_eq_some {v : UInt16} :
    loadLe16 buf p = some v ↔ BytesAt buf p (lowFirst16 v) := by
  simp [loadLe16, lowFirst16, Option.bind_eq_some_iff, pack16_eq_iff]

theorem loadBe32_eq_some {v : UInt32} :
    loadBe32 buf p = some v ↔ BytesAt buf p (lowFirst32 v).reverse := by
  simp [loadBe32, lowFirst32, Option.bind_eq_some_iff, pack32_eq_iff]

theorem loadLe32_eq_some {v : UInt32} :
    loadLe32 buf p = some v ↔ BytesAt buf p (lowFirst32 v) := by
  simp [loadLe32, lowFirst32, Option.bind_eq_some_iff, pack32_eq_iff]

theorem map_toInt16_eq_some {x : Option UInt16} {v : Int16} :
    x.map UInt16.toInt16 = some v ↔ x = some v.toUInt16 := by
  rw [Option.map_eq_some_iff]
  constructor
  · rintro ⟨a, rfl, rfl⟩
    rfl
  · rintro rfl
    exact ⟨_, rfl, rfl⟩

theorem map_toInt32_eq_some {x : Option UInt32} {v : Int32} :
    x.map UInt32.toInt32 = some v ↔ x = some v.toUInt32 := by
  rw [Option.map_eq_some_iff]
  constructor
  · rintro ⟨a, rfl, rfl⟩
    rfl
  · rintro rfl
    exact ⟨_, rfl, rfl⟩

/-- **A load answers a value exactly when the bytes of that value are there.** -/
theorem Field.load_eq_some {f : Field} {v : f.word.Value} :
    f.load buf = some v ↔ BytesAt buf f.offset (f.bytes v) := by
  match f, v with
  | ⟨p, .be, .u16⟩, v => exact loadBe16_eq_some
  | ⟨p, .be, .u32⟩, v => exact loadBe32_eq_some
  | ⟨p, .be, .s16⟩, v => exact map_toInt16_eq_some.trans loadBe16_eq_some
  | ⟨p, .be, .s32⟩, v => exact map_toInt32_eq_some.trans loadBe32_eq_some
  | ⟨p, .le, .u16⟩, v => exact loadLe16_eq_some
  | ⟨p, .le, .u32⟩, v => exact loadLe32_eq_some
  | ⟨p, .le, .s16⟩, v => exact map_toInt16_eq_some.trans loadLe16_eq_some
  | ⟨p, .le, .s32⟩, v => exact map_toInt32_eq_some.trans loadLe32_eq_some

/-- What a load answers is decided by the bytes of its field. -/
theorem Field.load_congr {buf' : Vector UInt8 n} {f : Field}
    (h : ∀ i, f.offset ≤ i → i < f.stop → buf'[i]? = buf[i]?) : f.load buf' = f.load buf := by
  apply Option.ext
  intro v
  have hbytes : BytesAt buf' f.offset (f.bytes v) ↔ BytesAt buf f.offset (f.bytes v) := by
    refine forall₂_congr fun i hi => ?_
    rw [f.length_bytes] at hi
    rw [h (f.offset + i) (by omega) (by rw [Field.stop]; omega)]
  exact Field.load_eq_some.trans (hbytes.trans Field.load_eq_some.symm)

end Loads

/-! ### What a store does -/

theorem setByte_of_lt (buf : Vector UInt8 n) {i : Nat} (byte : UInt8) (h : i < n) :
    ∃ buf', setByte buf i byte = some buf' ∧ buf'[i]? = some byte ∧
      ∀ j, j ≠ i → buf'[j]? = buf[j]? := by
  refine ⟨buf.set i byte, dif_pos h, ?_, ?_⟩
  · simp
  · intro j hj
    exact Vector.getElem?_set_ne h hj.symm

/-- The bytes are there afterwards, and no other byte has changed. -/
theorem setBytes_of_le (buf : Vector UInt8 n) {p : Nat} {bytes : List UInt8}
    (h : p + bytes.length ≤ n) :
    ∃ buf', setBytes buf p bytes = some buf' ∧ BytesAt buf' p bytes ∧
      ∀ j, j < p ∨ p + bytes.length ≤ j → buf'[j]? = buf[j]? := by
  induction bytes generalizing buf p with
  | nil => exact ⟨buf, rfl, bytesAt_nil buf p, fun _ _ => rfl⟩
  | cons byte bytes ih =>
      rw [List.length_cons] at h ⊢
      obtain ⟨buf₁, h₁, hbyte, hrest⟩ := setByte_of_lt buf byte (by omega : p < n)
      obtain ⟨buf₂, h₂, hbytes, hframe⟩ := ih buf₁ (p := p + 1) (by omega)
      refine ⟨buf₂, by rw [setBytes, h₁]; exact h₂, bytesAt_cons.mpr ⟨?_, hbytes⟩, ?_⟩
      · rw [hframe p (.inl (by omega)), hbyte]
      · intro j hj
        rw [hframe j (by omega), hrest j (by omega)]

/-- **One store.** Inside the buffer it succeeds, its own load then answers the value, and
the bytes outside the field are as they were. The first is the round trip, the last the
frame condition. -/
theorem Field.store_of_le (buf : Vector UInt8 n) {f : Field} (h : f.stop ≤ n) (v : f.word.Value) :
    ∃ buf', f.store buf v = some buf' ∧ f.load buf' = some v ∧
      ∀ j, j < f.offset ∨ f.stop ≤ j → buf'[j]? = buf[j]? := by
  have hlen : f.offset + (f.bytes v).length = f.stop := by rw [f.length_bytes, Field.stop]
  obtain ⟨buf', hset, hbytes, hframe⟩ := setBytes_of_le buf (hlen.trans_le h)
  exact ⟨buf', (f.store_eq buf v).trans hset, Field.load_eq_some.mpr hbytes, by rwa [hlen] at hframe⟩

/-! ### Layouts

The fields of a message, none of them sharing a byte with another. Over a sequence of stores
the invariant is, field by field, what its own load would answer now. -/

/-- No byte belongs to both. -/
def Field.Apart (f g : Field) : Prop := f.stop ≤ g.offset ∨ g.stop ≤ f.offset

instance : DecidableRel Field.Apart := fun f g =>
  inferInstanceAs (Decidable (f.stop ≤ g.offset ∨ g.stop ≤ f.offset))

/-- The fields of a message of `n` bytes. A layout cannot be built with a field outside the
message or over another one. -/
structure Layout (n : Nat) where
  fields : List Field
  inside : ∀ f ∈ fields, f.stop ≤ n
  apart : fields.Pairwise Field.Apart

theorem Layout.apart_of_ne (L : Layout n) {f g : Field} (hf : f ∈ L.fields) (hg : g ∈ L.fields)
    (hne : f ≠ g) : f.Apart g := by
  have : Std.Symm Field.Apart := ⟨fun _ _ => Or.symm⟩
  exact L.apart.forall hf hg hne

/-- One call of a store. -/
structure Write where
  field : Field
  value : field.word.Value

def Write.step (buf : Vector UInt8 n) (w : Write) : Option (Vector UInt8 n) :=
  w.field.store buf w.value

/-- The value, if it is written to `f`. -/
def Write.to (w : Write) (f : Field) : Option f.word.Value :=
  if h : w.field = f then some (h ▸ w.value) else none

/-- The last value that is written to `f`. -/
def lastWrite (f : Field) : List Write → Option f.word.Value
  | [] => none
  | w :: ws => (lastWrite f ws).or (w.to f)

theorem Write.step_spec (L : Layout n) {w : Write} (hw : w.field ∈ L.fields)
    (buf : Vector UInt8 n) :
    ∃ buf', w.step buf = some buf' ∧
      (∀ f ∈ L.fields, f.load buf' = (w.to f).or (f.load buf)) ∧
      ∀ i, (∀ f ∈ L.fields, i < f.offset ∨ f.stop ≤ i) → buf'[i]? = buf[i]? := by
  obtain ⟨buf', hstore, hload, hframe⟩ := Field.store_of_le buf (L.inside _ hw) w.value
  refine ⟨buf', hstore, ?_, fun i hi => hframe i (hi _ hw)⟩
  intro f hf
  by_cases hne : w.field = f
  · subst hne
    simpa [Write.to] using hload
  · rw [Write.to, dif_neg hne, Option.none_or]
    apply Field.load_congr
    intro i hi hi'
    have := L.apart_of_ne hw hf hne
    apply hframe
    rcases this with h | h <;> omega

/-- **Fields do not disturb each other.** Whatever stores are made to the fields of a
layout, in whatever order and however often, every one of them succeeds, each field loads
the value last stored in it (or what it loaded at first), whatever its order of bytes and
its signedness, and the bytes that belong to no field stay as they were. -/
theorem fields_hold_last_written (L : Layout n) {ws : List Write}
    (hws : ∀ w ∈ ws, w.field ∈ L.fields) (buf : Vector UInt8 n) :
    ∃ buf', Run.exec Write.step buf ws = some buf' ∧
      (∀ f ∈ L.fields, f.load buf' = (lastWrite f ws).or (f.load buf)) ∧
      ∀ i, (∀ f ∈ L.fields, i < f.offset ∨ f.stop ≤ i) → buf'[i]? = buf[i]? := by
  induction ws generalizing buf with
  | nil => exact ⟨buf, rfl, fun f _ => rfl, fun _ _ => rfl⟩
  | cons w ws ih =>
      obtain ⟨hw, hws⟩ := List.forall_mem_cons.mp hws
      obtain ⟨buf₁, hstep, hload₁, hframe₁⟩ := Write.step_spec L hw buf
      obtain ⟨buf₂, hrun, hload₂, hframe₂⟩ := ih hws buf₁
      refine ⟨buf₂, Run.exec_cons_eq_some.mpr ⟨buf₁, hstep, hrun⟩, ?_, ?_⟩
      · intro f hf
        rw [hload₂ f hf, hload₁ f hf, lastWrite, Option.or_assoc]
      · intro i hi
        rw [hframe₂ i hi, hframe₁ i hi]

def telemetryLayout : Layout 10 where
  fields := [⟨0, .be, .u16⟩, ⟨2, .le, .s32⟩, ⟨6, .be, .s16⟩]
  inside := by decide
  apart := by decide

/-- A field stored twice, a negative value and a byte order of each kind; the last two
bytes belong to no field. -/
theorem fields_hold_last_written_telemetry :
    ∃ buf', Run.exec Write.step (Vector.replicate 10 0)
        [⟨⟨0, .be, .u16⟩, (0x1234 : UInt16)⟩, ⟨⟨2, .le, .s32⟩, (-2 : Int32)⟩,
          ⟨⟨0, .be, .u16⟩, (0xABCD : UInt16)⟩] = some buf' ∧
      (∀ f ∈ telemetryLayout.fields, f.load buf' =
        (lastWrite f [⟨⟨0, .be, .u16⟩, (0x1234 : UInt16)⟩, ⟨⟨2, .le, .s32⟩, (-2 : Int32)⟩,
          ⟨⟨0, .be, .u16⟩, (0xABCD : UInt16)⟩]).or (f.load (Vector.replicate 10 0))) ∧
      ∀ i, (∀ f ∈ telemetryLayout.fields, i < f.offset ∨ f.stop ≤ i) →
        buf'[i]? = (Vector.replicate 10 (0 : UInt8))[i]? :=
  fields_hold_last_written telemetryLayout (by simp [telemetryLayout]) _

/-! ### Overlapping fields

That the fields must be apart is no artefact of the proof: of two fields with a common byte
one can be stored so that the other loads something else. A value of all zeros and one of
all ones show it, whatever the two words and orders are. -/

theorem Word.size_pos (w : Word) : 0 < w.size := by
  cases w <;> decide

/-- The value whose bytes are all `0x00`, or all `0xFF`. -/
def Word.fill : Bool → (w : Word) → w.Value
  | false, .u16 => (0 : UInt16)
  | false, .u32 => (0 : UInt32)
  | false, .s16 => (0 : Int16)
  | false, .s32 => (0 : Int32)
  | true, .u16 => (0xFFFF : UInt16)
  | true, .u32 => (0xFFFFFFFF : UInt32)
  | true, .s16 => (-1 : Int16)
  | true, .s32 => (-1 : Int32)

theorem Word.lowFirst_fill (w : Word) (b : Bool) :
    w.lowFirst (w.fill b) = List.replicate w.size (if b then 0xFF else 0) := by
  cases w <;> cases b <;> decide

theorem Field.bytes_fill (f : Field) (b : Bool) :
    f.bytes (f.word.fill b) = List.replicate f.word.size (if b then 0xFF else 0) := by
  rw [Field.bytes, Word.lowFirst_fill]
  cases f.order with
  | be => exact List.reverse_replicate
  | le => rfl

theorem Field.byte_of_load_fill {buf : Vector UInt8 n} {f : Field} {b : Bool}
    (h : f.load buf = some (f.word.fill b)) {i : Nat} (hi : f.offset ≤ i) (hi' : i < f.stop) :
    buf[i]? = some (if b then 0xFF else 0) := by
  have hlt : i - f.offset < f.word.size := by
    rw [Field.stop] at hi'
    omega
  have hbyte := Field.load_eq_some.mp h (i - f.offset) (by rwa [f.length_bytes])
  rwa [f.bytes_fill, List.getElem?_replicate_of_lt hlt, Nat.add_sub_cancel' hi] at hbyte

/-- **Which layouts are safe.** A store to one field never changes what another loads,
whatever the buffer and the value, exactly when no byte belongs to both. -/
theorem stores_independent_iff {f g : Field} (hf : f.stop ≤ n) (hg : g.stop ≤ n) :
    (∀ (buf : Vector UInt8 n) (v : f.word.Value),
      (f.store buf v).bind (fun buf' => g.load buf') = g.load buf) ↔ f.Apart g := by
  constructor
  · intro h
    by_contra hover
    -- a byte of both fields: zero for the one and, after the store, not for the other
    have hfpos := f.word.size_pos
    have hgpos := g.word.size_pos
    obtain ⟨i, hif, hif', hig, hig'⟩ :
        ∃ i, f.offset ≤ i ∧ i < f.stop ∧ g.offset ≤ i ∧ i < g.stop := by
      simp only [Field.Apart, not_or, not_le] at hover
      refine ⟨max f.offset g.offset, ?_⟩
      simp only [Field.stop] at hover ⊢
      omega
    obtain ⟨buf, -, hg0, -⟩ := Field.store_of_le (Vector.replicate n 0) hg (g.word.fill false)
    obtain ⟨buf', hstore, hf1, -⟩ := Field.store_of_le buf hf (f.word.fill true)
    have hg1 : g.load buf' = some (g.word.fill false) := by
      have := h buf (f.word.fill true)
      rwa [hstore, Option.bind_some, hg0] at this
    have hone := Field.byte_of_load_fill hf1 hif hif'
    have hzero := Field.byte_of_load_fill hg1 hig hig'
    rw [hone] at hzero
    exact absurd hzero (by decide)
  · intro hapart buf v
    obtain ⟨buf', hstore, -, hframe⟩ := Field.store_of_le buf hf v
    rw [hstore, Option.bind_some]
    apply Field.load_congr
    intro i hi hi'
    apply hframe
    rcases hapart with h | h <;> omega

/-- The high half of a 32-bit field is not a place for a 16-bit one. -/
theorem stores_independent_iff_nested :
    ¬ ∀ (buf : Vector UInt8 4) (v : UInt16),
      (Field.store buf ⟨0, .be, .u16⟩ v).bind (fun buf' => Field.load buf' ⟨0, .be, .u32⟩)
        = Field.load buf ⟨0, .be, .u32⟩ :=
  fun h => absurd
    ((stores_independent_iff (n := 4) (f := ⟨0, .be, .u16⟩) (g := ⟨0, .be, .u32⟩) (by decide)
      (by decide)).mp h) (by decide)

/-! ### The other order -/

def Order.other : Order → Order
  | .be => .le
  | .le => .be

def Field.reordered (f : Field) : Field := { f with order := f.order.other }

theorem Field.bytes_reordered (f : Field) (v : f.word.Value) :
    f.reordered.bytes v = (f.bytes v).reverse := by
  obtain ⟨p, o, w⟩ := f
  cases o with
  | be => exact (List.reverse_reverse _).symm
  | le => rfl

theorem BytesAt.ext {buf : Vector UInt8 n} {p : Nat} {bytes bytes' : List UInt8}
    (hlen : bytes.length = bytes'.length) (h : BytesAt buf p bytes) :
    BytesAt buf p bytes' ↔ bytes' = bytes := by
  constructor
  · intro h'
    apply List.ext_getElem?
    intro i
    by_cases hi : i < bytes.length
    · rw [← h i hi, ← h' i (hlen ▸ hi)]
    · rw [List.getElem?_eq_none (by omega), List.getElem?_eq_none (by omega)]
  · rintro rfl
    exact h

/-- **Two drivers that disagree about the order agree on palindromes only.** A value that
one of them stores the other loads as it is exactly when its bytes read the same both
ways. -/
theorem other_order_agrees_iff (f : Field) (hinside : f.stop ≤ n) (v : f.word.Value)
    (buf : Vector UInt8 n) :
    (f.store buf v).bind (fun buf' => f.reordered.load buf') = some v ↔
      (f.bytes v).reverse = f.bytes v := by
  obtain ⟨buf', hstore, hload, -⟩ := Field.store_of_le buf hinside v
  have hbytes := Field.load_eq_some.mp hload
  rw [hstore, Option.bind_some]
  calc f.reordered.load buf' = some v
      ↔ BytesAt buf' f.offset (f.reordered.bytes v) := Field.load_eq_some
    _ ↔ BytesAt buf' f.offset (f.bytes v).reverse := by rw [f.bytes_reordered]
    _ ↔ (f.bytes v).reverse = f.bytes v := hbytes.ext List.length_reverse.symm

theorem other_order_agrees_iff_palindrome :
    (Field.store (Vector.replicate 4 0) ⟨0, .be, .u32⟩ (0xA55AA55A : UInt32)).bind
        (fun buf' => Field.load buf' ⟨0, .le, .u32⟩) ≠ some (0xA55AA55A : UInt32) ∧
      (Field.store (Vector.replicate 4 0) ⟨0, .be, .u32⟩ (0xA55A5AA5 : UInt32)).bind
        (fun buf' => Field.load buf' ⟨0, .le, .u32⟩) = some (0xA55A5AA5 : UInt32) :=
  ⟨fun h => absurd ((other_order_agrees_iff ⟨0, .be, .u32⟩ (by decide) _ _).mp h) (by decide),
    (other_order_agrees_iff ⟨0, .be, .u32⟩ (by decide) _ _).mpr (by decide)⟩

end XmBase.Serialization
