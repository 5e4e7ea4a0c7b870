import XmBase.Lib.Bytes
import XmBase.Lib.Word
/-!
# XmBase.Telemetry.ArgPack

The deferred-format argument pack (`include/xmbase/telemetry/binding.hpp`): up to
eight arguments, copied one after the other into a buffer of 160 bytes. Numbers
and bools that do not fit are dropped, strings are shortened to what is left.

`Stores p vs` says that the pack holds exactly the values `vs`; **every packing
function refines its list-level counterpart** (`Stores.packOne`), so what a pack
built by `PackArgs` decodes to is `keep 0 0` of the argument values
(`packArgs_stores`).

Signed and unsigned integers of any width arrive as their 64-bit value, floating
point values as the bits of the `double` they are converted to.
-/

namespace XmBase.Telemetry

/-- Text, byte by byte. -/
abbrev Text := List UInt8

/-- The bytes of an ASCII literal. -/
def ascii (s : String) : Text := s.toList.map fun c => UInt8.ofNat c.toNat

inductive ArgType
  | kBool
  | kI64
  | kU64
  | kF64
  | kStr
  deriving DecidableEq, Repr

namespace ArgPack

def kMaxArgs : Nat := 8

def kBufBytes : Nat := 160

end ArgPack

open ArgPack (kMaxArgs kBufBytes)

structure ArgPack where
  count : UInt8
  types : Vector ArgType kMaxArgs
  offsets : Vector UInt8 kMaxArgs
  /-- Used by `kStr`. -/
  lens : Vector UInt8 kMaxArgs
  used : UInt8
  buf : Vector UInt8 kBufBytes
  deriving DecidableEq

namespace ArgPack

/-- `ArgPack{}`. -/
def empty : ArgPack where
  count := 0
  types := .replicate _ .kBool
  offsets := .replicate _ 0
  lens := .replicate _ 0
  used := 0
  buf := .replicate _ 0

/-- `PutRaw(t, p, n, display_len)` with the `n` bytes at `p`. -/
def putRaw (p : ArgPack) (t : ArgType) (bytes : Text) (displayLen : Nat) : ArgPack × Bool :=
  if kMaxArgs ≤ p.count.toNat ∨ kBufBytes < p.used.toNat + bytes.length then (p, false)
  else
    ({ count := p.count + 1
       types := p.types.setIfInBounds p.count.toNat t
       offsets := p.offsets.setIfInBounds p.count.toNat p.used
       lens := p.lens.setIfInBounds p.count.toNat (.ofNat displayLen)
       used := .ofNat (p.used.toNat + bytes.length)
       buf := Bytes.memcpy p.buf p.used.toNat bytes }, true)

/-- `PackStr`. -/
def packStr (p : ArgPack) (v : Text) : ArgPack :=
  let n := v.length
  let n := if kBufBytes < p.used.toNat + n then kBufBytes - p.used.toNat else n
  -- the length field is a byte
  let n := if 255 < n then 255 else n
  (p.putRaw .kStr (v.take n) n).1

end ArgPack

/-- An argument of an event, by the branch of `PackOne` it takes. -/
inductive Arg
  | bool (v : Bool)
  /-- A char array; its text ends at the first NUL. -/
  | charArray (v : Text)
  /-- A `char` pointer: null, or the text up to its NUL. -/
  | charPtr (v : Option Text)
  | signed (v : Int64)
  | unsigned (v : UInt64)
  | floating (bits : UInt64)
  /-- Anything else that converts to `std::string_view`. -/
  | text (v : Text)
  deriving DecidableEq, Repr

namespace ArgPack

/-- `PackOne`. -/
def packOne (p : ArgPack) : Arg → ArgPack
  | .bool v => (p.putRaw .kBool [if v then 1 else 0] 0).1
  | .charArray v => p.packStr (v.takeWhile (· ≠ 0))
  | .charPtr v =>
      match v with
      | none => p.packStr (ascii "(null)")
      | some s => p.packStr s
  | .signed v => (p.putRaw .kI64 (Bytes.wordBytes v.toUInt64) 0).1
  | .unsigned v => (p.putRaw .kU64 (Bytes.wordBytes v) 0).1
  | .floating bits => (p.putRaw .kF64 (Bytes.wordBytes bits) 0).1
  | .text v => p.packStr v

end ArgPack

/-- `PackArgs`. -/
def packArgs (args : List Arg) : ArgPack := args.foldl ArgPack.packOne .empty

/-! ### Reading a pack -/

/-- A packed value. -/
inductive Value
  | bool (v : Bool)
  | i64 (v : Int64)
  | u64 (v : UInt64)
  | f64 (bits : UInt64)
  | str (v : Text)
  deriving DecidableEq, Repr

/-- Entry `i`, read the way the formatters do: by its type, from its offset. -/
def ArgPack.entry (p : ArgPack) (i : Nat) : Value :=
  let src := (p.offsets[i]?.getD 0).toNat
  match p.types[i]?.getD .kBool with
  | .kBool => .bool (Bytes.slice p.buf src 1 ≠ [0])
  | .kI64 => .i64 (Bytes.ofWordBytes (Bytes.slice p.buf src 8)).toInt64
  | .kU64 => .u64 (Bytes.ofWordBytes (Bytes.slice p.buf src 8))
  | .kF64 => .f64 (Bytes.ofWordBytes (Bytes.slice p.buf src 8))
  | .kStr => .str (Bytes.slice p.buf src (p.lens[i]?.getD 0).toNat)

/-- All packed entries. -/
def ArgPack.values (p : ArgPack) : List Value := (List.range p.count.toNat).map p.entry

/-! ### Values

The same, without the buffer. `keepOne` packs one value behind others; it is the list-level
counterpart that each packing function is compared with, and it says by itself which values
are dropped and which are cut. -/

namespace Value

/-- The tag a value is packed under. -/
def type : Value → ArgType
  | bool _ => .kBool
  | i64 _ => .kI64
  | u64 _ => .kU64
  | f64 _ => .kF64
  | str _ => .kStr

/-- What is copied for it. -/
def bytes : Value → Text
  | bool v => [if v then 1 else 0]
  | i64 v => Bytes.wordBytes v.toUInt64
  | u64 v => Bytes.wordBytes v
  | f64 bits => Bytes.wordBytes bits
  | str v => v

/-- What its length field holds. -/
def displayLen : Value → Nat
  | str v => v.length
  | _ => 0

/-- The value is packed when `used` bytes are taken and there is a free entry. -/
def fits (used : Nat) : Value → Bool
  | str _ => true
  | v => used + v.bytes.length ≤ kBufBytes

/-- The part of the value that is packed. -/
def clip (used : Nat) : Value → Value
  | str v => str (v.take (kBufBytes - used))
  | v => v

end Value

/-- The value of an argument. -/
def Arg.value : Arg → Value
  | .bool v => .bool v
  | .charArray v => .str (v.takeWhile (· ≠ 0))
  | .charPtr v => .str (v.getD (ascii "(null)"))
  | .signed v => .i64 v
  | .unsigned v => .u64 v
  | .floating bits => .f64 bits
  | .text v => .str v

/-- The bytes that values take up. -/
def packedBytes (vs : List Value) : Text := vs.flatMap Value.bytes

/-- Pack one more value behind `vs`. -/
def keepOne (vs : List Value) (v : Value) : List Value :=
  if vs.length < kMaxArgs ∧ v.fits (packedBytes vs).length then
    vs ++ [v.clip (packedBytes vs).length]
  else vs

/-- The values packed of a list, with `used` bytes and `n` entries taken before. It is
`keepOne` folded, with the two counters that the code looks at made explicit. -/
def keep (used n : Nat) : List Value → List Value
  | [] => []
  | v :: vs =>
      if n < kMaxArgs ∧ v.fits used then
        v.clip used :: keep (used + (v.clip used).bytes.length) (n + 1) vs
      else keep used n vs

theorem foldl_keepOne (vs ws : List Value) :
    ws.foldl keepOne vs = vs ++ keep (packedBytes vs).length vs.length ws := by
  induction ws generalizing vs with
  | nil => simp [keep]
  | cons w ws ih =>
      rw [List.foldl_cons, ih, keepOne, keep]
      split
      · simp [packedBytes]
      · rfl

/-! ### A pack holds its values

The correspondence between the 160 bytes and the list. `Stores` is the invariant of packing,
and from it alone an entry reads back as its value: the bytes of the values stand back to
back, so the offset of one is the length of those before it. -/

/-- The pack holds exactly the values `vs`, back to back. Where the tables and the buffer go
on behind the values is left open: nothing reads there. -/
structure Stores (p : ArgPack) (vs : List Value) : Prop where
  count : p.count.toNat = vs.length
  count_le : vs.length ≤ kMaxArgs
  used : p.used.toNat = (packedBytes vs).length
  used_le : (packedBytes vs).length ≤ kBufBytes
  types : ∀ (i : Nat) (v : Value), vs[i]? = some v → p.types[i]? = some v.type
  offsets : ∀ (i : Nat) (v : Value), vs[i]? = some v → p.offsets[i]? = some (.ofNat (packedBytes (vs.take i)).length)
  lens : ∀ (i : Nat) (v : Value), vs[i]? = some v → p.lens[i]? = some (.ofNat v.displayLen)
  bytes : Bytes.slice p.buf 0 (packedBytes vs).length = packedBytes vs

theorem Stores.empty : Stores .empty [] where
  count := rfl
  count_le := Nat.zero_le _
  used := rfl
  used_le := Nat.zero_le _
  types i v h := by simp at h
  offsets i v h := by simp at h
  lens i v h := by simp at h
  bytes := rfl

theorem packedBytes_split {vs : List Value} {i : Nat} {v : Value} (h : vs[i]? = some v) :
    packedBytes vs = packedBytes (vs.take i) ++ (v.bytes ++ packedBytes (vs.drop (i + 1))) := by
  obtain ⟨hi, rfl⟩ := List.getElem?_eq_some_iff.mp h
  have hvs : vs.take i ++ vs[i] :: vs.drop (i + 1) = vs := by
    rw [← List.drop_eq_getElem_cons hi, List.take_append_drop]
  conv_lhs => rw [← hvs]
  simp only [packedBytes, List.flatMap_append, List.flatMap_cons]

variable {p : ArgPack} {vs : List Value}

/-- The bytes at an entry's offset are the entry's. They stand behind those of the entries
before it. -/
theorem Stores.slice (h : Stores p vs) {i : Nat} {v : Value} (hi : vs[i]? = some v) :
    Bytes.slice p.buf (p.offsets[i]?.getD 0).toNat v.bytes.length = v.bytes := by
  have hsplit := packedBytes_split hi
  have hlen := congrArg List.length hsplit
  have hle := h.used_le
  simp only [List.length_append, kBufBytes] at hlen hle
  rw [h.offsets i v hi, Option.getD_some, UInt8.toNat_ofNat_of_lt' (by show _ < 256; omega),
    Bytes.slice_slice _ (packedBytes vs).length (by omega), h.bytes, hsplit, List.drop_left,
    List.take_left]

theorem Stores.displayLen_le (h : Stores p vs) {i : Nat} {v : Value} (hi : vs[i]? = some v) :
    v.displayLen ≤ kBufBytes := by
  have hlen := congrArg List.length (packedBytes_split hi)
  have hle := h.used_le
  simp only [List.length_append] at hlen
  cases v with
  | str s =>
      show s.length ≤ _
      simp only [Value.bytes] at hlen
      omega
  | _ => exact Nat.zero_le _

/-- **What was packed is read back.** The type says how many bytes to take, and a length
fits in its byte because no string is longer than the buffer. -/
theorem Stores.entry (h : Stores p vs) {i : Nat} {v : Value} (hi : vs[i]? = some v) :
    p.entry i = v := by
  have hslice := h.slice hi
  have hle := h.displayLen_le hi
  simp only [ArgPack.entry, h.types i v hi, h.lens i v hi, Option.getD_some]
  cases v with
  | bool b => cases b <;> simp_all [Value.bytes, Value.type]
  | i64 w => simp_all [Value.bytes, Value.type]
  | u64 w => simp_all [Value.bytes, Value.type]
  | f64 w => simp_all [Value.bytes, Value.type]
  | str s =>
      have hlen : (UInt8.ofNat s.length).toNat = s.length :=
        UInt8.toNat_ofNat_of_lt' (Nat.lt_of_le_of_lt hle (by decide))
      simp only [Value.type, Value.displayLen, hlen]
      exact congrArg Value.str hslice

theorem Stores.values (h : Stores p vs) : p.values = vs := by
  apply List.ext_getElem?
  intro i
  rw [ArgPack.values, h.count, List.getElem?_map]
  by_cases hi : i < vs.length
  · rw [List.getElem?_range hi, List.getElem?_eq_getElem hi]
    exact congrArg some (h.entry (List.getElem?_eq_getElem hi))
  · rw [List.getElem?_eq_none (by rw [List.length_range]; omega),
      List.getElem?_eq_none (by omega)]
    rfl

/-! ### Packing

One lemma for each packing function, by the invariant. A refused `PutRaw` leaves the pack as
it was, a string is cut to the room, and both are what `keepOne` says. -/

/-- One more entry in one of the tables. -/
theorem getElem?_table_append {α : Type} {n : Nat} {xs : Vector α n} {v : Value}
    {f : Nat → Value → α} (hn : vs.length < n)
    (hold : ∀ i u, vs[i]? = some u → xs[i]? = some (f i u)) {i : Nat} {u : Value}
    (hi : (vs ++ [v])[i]? = some u) :
    (xs.setIfInBounds vs.length (f vs.length v))[i]? = some (f i u) := by
  rw [Vector.getElem?_setIfInBounds]
  rcases Word.getElem?_append_singleton hi with hi | ⟨rfl, rfl⟩
  · have hlt := (List.getElem?_eq_some_iff.mp hi).1
    rw [if_neg (by omega)]
    exact hold i u hi
  · rw [if_pos rfl, if_pos hn]

/-- An accepted `PutRaw` appends its value. The tables grow by one, and the buffer by the
value's bytes. -/
theorem Stores.putRaw (h : Stores p vs) {v : Value} (hn : vs.length < kMaxArgs)
    (hb : (packedBytes vs).length + v.bytes.length ≤ kBufBytes) :
    Stores (p.putRaw v.type v.bytes v.displayLen).1 (vs ++ [v]) := by
  have hroom : ¬ (kMaxArgs ≤ p.count.toNat ∨ kBufBytes < p.used.toNat + v.bytes.length) := by
    rw [h.count, h.used]
    omega
  have hbytes : packedBytes (vs ++ [v]) = packedBytes vs ++ v.bytes := by simp [packedBytes]
  have hlen : (packedBytes (vs ++ [v])).length = (packedBytes vs).length + v.bytes.length := by
    rw [hbytes, List.length_append]
  have hused : UInt8.ofNat (packedBytes vs).length = p.used := by
    rw [← h.used, UInt8.ofNat_toNat]
  rw [ArgPack.putRaw, if_neg hroom, h.count, h.used]
  exact {
    count := by
      simp only [kMaxArgs] at hn
      rw [UInt8.toNat_add, h.count, List.length_append]
      show (vs.length + 1) % 256 = vs.length + 1
      omega
    count_le := by rw [List.length_append]; exact hn
    used := by
      simp only [kBufBytes] at hb
      rw [hlen]
      exact UInt8.toNat_ofNat_of_lt' (by show _ < 256; omega)
    used_le := by rw [hlen]; exact hb
    types := fun i u hi =>
      getElem?_table_append (f := fun _ u => u.type) hn (fun i u => h.types i u) hi
    offsets := fun i u hi => by
      have hi' : i ≤ vs.length := by
        have := (List.getElem?_eq_some_iff.mp hi).1
        rw [List.length_append] at this
        exact Nat.le_of_lt_succ this
      have := getElem?_table_append (f := fun i _ => UInt8.ofNat (packedBytes (vs.take i)).length)
        hn (fun i u => h.offsets i u) hi
      rw [List.take_length, hused] at this
      rw [this, List.take_append_of_le_length hi']
    lens := fun i u hi =>
      getElem?_table_append (f := fun _ u => UInt8.ofNat u.displayLen) hn (fun i u => h.lens i u) hi
    bytes := by
      rw [hlen, hbytes, Bytes.slice_add, Bytes.slice_memcpy_of_le _ _ (Nat.le_of_eq (Nat.zero_add _)),
        h.bytes, Nat.zero_add, Bytes.slice_memcpy_self _ hb] }

/-- A refused `PutRaw` changes nothing. Both tests come before the first write. -/
theorem putRaw_refused (h : Stores p vs) {t : ArgType} {bytes : Text} {displayLen : Nat}
    (hfull : ¬ (vs.length < kMaxArgs ∧ (packedBytes vs).length + bytes.length ≤ kBufBytes)) :
    (p.putRaw t bytes displayLen).1 = p := by
  rw [ArgPack.putRaw, if_pos]
  rw [h.count, h.used]
  omega

/-- A bool or a number is packed whole or not at all. -/
theorem Stores.putRaw_keepOne (h : Stores p vs) {v : Value} (hclip : ∀ used, v.clip used = v)
    (hfits : ∀ used, v.fits used = decide (used + v.bytes.length ≤ kBufBytes)) :
    Stores (p.putRaw v.type v.bytes v.displayLen).1 (keepOne vs v) := by
  rw [keepOne, hfits, hclip]
  by_cases hroom : vs.length < kMaxArgs ∧ (packedBytes vs).length + v.bytes.length ≤ kBufBytes
  · rw [if_pos (by simpa using hroom)]
    exact h.putRaw hroom.1 hroom.2
  · rw [if_neg (by simpa using hroom), putRaw_refused h hroom]
    exact h

/-- The two tests of `PackStr` cut the string to the room that is left. -/
theorem Stores.packStr_eq (h : Stores p vs) (s : Text) :
    p.packStr s = (p.putRaw .kStr (s.take (kBufBytes - (packedBytes vs).length))
      (s.take (kBufBytes - (packedBytes vs).length)).length).1 := by
  have hle := h.used_le
  have hn : (if kBufBytes < p.used.toNat + s.length then kBufBytes - p.used.toNat
      else s.length) = (s.take (kBufBytes - (packedBytes vs).length)).length := by
    rw [h.used, List.length_take]
    split <;> omega
  have h255 : ¬ 255 < (s.take (kBufBytes - (packedBytes vs).length)).length := by
    simp only [List.length_take, kBufBytes]
    omega
  simp only [ArgPack.packStr, hn, if_neg h255]
  rw [← List.prefix_iff_eq_take.mp (List.take_prefix _ _)]

/-- A string is packed as far as there is room. A string of no byte is an entry too. -/
theorem Stores.packStr (h : Stores p vs) (s : Text) :
    Stores (p.packStr s) (keepOne vs (.str s)) := by
  have hle := h.used_le
  rw [h.packStr_eq, keepOne]
  by_cases hn : vs.length < kMaxArgs
  · rw [if_pos ⟨hn, rfl⟩]
    refine h.putRaw (v := .str (s.take (kBufBytes - (packedBytes vs).length))) hn ?_
    simp only [Value.bytes, List.length_take]
    omega
  · rw [if_neg (fun hroom => hn hroom.1), putRaw_refused h (fun hroom => hn hroom.1)]
    exact h

/-- **`PackOne` packs one more value.** -/
theorem Stores.packOne (h : Stores p vs) (a : Arg) :
    Stores (p.packOne a) (keepOne vs a.value) := by
  cases a with
  | bool v => exact h.putRaw_keepOne (v := .bool v) (fun _ => rfl) (fun _ => rfl)
  | signed v => exact h.putRaw_keepOne (v := .i64 v) (fun _ => rfl) (fun _ => rfl)
  | unsigned v => exact h.putRaw_keepOne (v := .u64 v) (fun _ => rfl) (fun _ => rfl)
  | floating bits => exact h.putRaw_keepOne (v := .f64 bits) (fun _ => rfl) (fun _ => rfl)
  | charArray v => exact h.packStr _
  | text v => exact h.packStr v
  | charPtr v =>
      cases v with
      | none => exact h.packStr _
      | some s => exact h.packStr s

theorem foldl_packOne_stores (h : Stores p vs) (args : List Arg) :
    Stores (args.foldl ArgPack.packOne p) ((args.map Arg.value).foldl keepOne vs) := by
  induction args generalizing p vs with
  | nil => exact h
  | cons a args ih => exact ih (h.packOne a)

/-- **What `PackArgs` packs**: the values of its arguments that `keep` keeps, with nothing
taken before. -/
theorem packArgs_stores (args : List Arg) :
    Stores (packArgs args) (keep 0 0 (args.map Arg.value)) := by
  have h := foldl_packOne_stores Stores.empty args
  rw [foldl_keepOne] at h
  exact h

example : (packArgs [.signed (-2), .bool true, .charPtr none, .text (ascii "ab")]).values =
    [.i64 (-2), .bool true, .str (ascii "(null)"), .str (ascii "ab")] := by decide +kernel

end XmBase.Telemetry
