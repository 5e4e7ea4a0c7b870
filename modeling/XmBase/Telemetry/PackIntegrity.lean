import XmBase.Telemetry.FloatingArg
/-!
# XmBase.Telemetry.PackIntegrity

The argument pack over whole sequences of `PackOne` calls, on arguments in the types the
caller passes them: where the entries lie, what each decodes to from the call that packed
it on, and what a refused argument leaves behind. Everything is read off `Stores`.

`PackOne` widens an integer to 64 bits, which keeps its value, and casts a floating point
argument to `double`. That keeps a `float` and a `double`, but not every `long double`
(`pack_narrows_tenth`).
-/

namespace XmBase.Telemetry

open ArgPack (kMaxArgs kBufBytes)

/-- An argument in the type the caller passes it, up to 64 bits for an integer. -/
inductive Passed where
  | bool (v : Bool)
  | signed {w : Nat} (hw : w ≤ 64) (v : BitVec w)
  | unsigned {w : Nat} (hw : w ≤ 64) (v : BitVec w)
  | floating (v : Floating)
  | charArray (v : Text)
  | charPtr (v : Option Text)
  | text (v : Text)

namespace Passed

/-- The argument after the casts of `PackOne`. -/
def arg : Passed → Arg
  | bool v => .bool v
  | signed _ v => .signed (.ofBitVec (v.signExtend 64))
  | unsigned _ v => .unsigned (.ofBitVec (v.setWidth 64))
  | floating v => .floating v.toDouble
  | charArray v => .charArray v
  | charPtr v => .charPtr v
  | text v => .text v

/-- The text a string argument stands for. -/
def string? : Passed → Option Text
  | charArray v => some (v.takeWhile (· ≠ 0))
  | charPtr v => some (v.getD (ascii "(null)"))
  | text v => some v
  | _ => none

/-- `s` is the longest prefix of the text for which there is room behind `used` bytes. -/
structure LongestFitting (used : Nat) (text s : Text) : Prop where
  is_prefix : s <+: text
  fits : used + s.length ≤ kBufBytes
  longest : ∀ t, t <+: text → used + t.length ≤ kBufBytes → t.length ≤ s.length

/-- The value read is the value passed; a floating point argument, the `double` it is cast
to, and that is its value if a `double` can hold it; a string, its longest prefix that still
fitted. -/
def ReadAs (used : Nat) : Passed → Value → Prop
  | bool v, r => r = .bool v
  | signed _ v, r => ∃ x, r = .i64 x ∧ x.toInt = v.toInt
  | unsigned _ v, r => ∃ x, r = .u64 x ∧ x.toNat = v.toNat
  | floating v, r => r = .f64 v.toDouble ∧ ((∃ bits, v.Is bits) → v.Is v.toDouble)
  | charArray v, r => ∃ s, r = .str s ∧ LongestFitting used (v.takeWhile (· ≠ 0)) s
  | charPtr v, r => ∃ s, r = .str s ∧ LongestFitting used (v.getD (ascii "(null)")) s
  | text v, r => ∃ s, r = .str s ∧ LongestFitting used v s

end Passed

namespace ArgPack

/-- The pack after a sequence of `PackOne` calls on an empty one. -/
def packed (args : List Passed) : ArgPack := packArgs (args.map Passed.arg)

/-- The offset of entry `i`. -/
def offset (p : ArgPack) (i : Nat) : Nat := (p.offsets[i]?.getD 0).toNat

/-- The bytes a reader of entry `i` takes, by its type. -/
def entrySize (p : ArgPack) (i : Nat) : Nat :=
  match p.types[i]?.getD .kBool with
  | .kBool => 1
  | .kI64 | .kU64 | .kF64 => 8
  | .kStr => (p.lens[i]?.getD 0).toNat

/-- The entries lie back to back from the start of the buffer and fill what is used. -/
structure Laid (p : ArgPack) : Prop where
  count_le : p.count.toNat ≤ kMaxArgs
  used_le : p.used.toNat ≤ kBufBytes
  offset_eq : ∀ i < p.count.toNat, p.offset i = ((List.range i).map p.entrySize).sum
  used_eq : p.used.toNat = ((List.range p.count.toNat).map p.entrySize).sum

end ArgPack

/-! ### Layout -/

section

variable {p : ArgPack} {vs : List Value}

theorem Stores.entrySize (h : Stores p vs) {i : Nat} {v : Value} (hi : vs[i]? = some v) :
    p.entrySize i = v.bytes.length := by
  have hle := h.displayLen_le hi
  simp only [ArgPack.entrySize, h.types i v hi, h.lens i v hi, Option.getD_some]
  cases v with
  | bool b => rfl
  | i64 w => simp [Value.type, Value.bytes]
  | u64 w => simp [Value.type, Value.bytes]
  | f64 w => simp [Value.type, Value.bytes]
  | str s => exact UInt8.toNat_ofNat_of_lt' (Nat.lt_of_le_of_lt hle (by decide))

theorem Stores.sum_entrySize (h : Stores p vs) {n : Nat} (hn : n ≤ vs.length) :
    ((List.range n).map p.entrySize).sum = (packedBytes (vs.take n)).length := by
  induction n with
  | zero => rfl
  | succ n ih =>
      have hv : vs[n]? = some vs[n] := List.getElem?_eq_getElem hn
      rw [List.range_succ, List.map_append, List.sum_append, ih (Nat.le_of_lt hn),
        List.take_succ_eq_append_getElem hn, packedBytes, packedBytes, List.flatMap_append,
        List.length_append]
      simp [h.entrySize hv]

theorem Stores.offset (h : Stores p vs) {i : Nat} (hi : i < vs.length) :
    p.offset i = (packedBytes (vs.take i)).length := by
  have hv : vs[i]? = some vs[i] := List.getElem?_eq_getElem hi
  have hlen := congrArg List.length (packedBytes_split hv)
  have hle := h.used_le
  simp only [List.length_append, kBufBytes] at hlen hle
  rw [ArgPack.offset, h.offsets i _ hv, Option.getD_some,
    UInt8.toNat_ofNat_of_lt' (by show _ < 256; omega)]

theorem Stores.laid (h : Stores p vs) : p.Laid where
  count_le := by rw [h.count]; exact h.count_le
  used_le := by rw [h.used]; exact h.used_le
  offset_eq i hi := by
    rw [h.count] at hi
    rw [h.offset hi, h.sum_entrySize hi.le]
  used_eq := by rw [h.count, h.sum_entrySize le_rfl, List.take_length, h.used]

/-! ### One more argument

A call either packs its argument behind the others or leaves the pack as it is, to the last
byte. A string is never refused for want of room, only for want of an entry. -/

/-- An argument without room, or behind eight others, leaves the pack as it is. -/
theorem Stores.packOne_refused (h : Stores p vs) {a : Arg}
    (hfull : ¬ (vs.length < kMaxArgs ∧ a.value.fits (packedBytes vs).length)) :
    p.packOne a = p := by
  -- a string always fits, so for it all entries are taken
  have hstr (s : Text) (hs : ¬ (vs.length < kMaxArgs ∧ (Value.str s).fits (packedBytes vs).length)) :
      p.packStr s = p := by
    rw [h.packStr_eq]
    exact putRaw_refused h fun hroom => hs ⟨hroom.1, rfl⟩
  have hnum {v : Value} (hfits : v.fits (packedBytes vs).length =
      decide ((packedBytes vs).length + v.bytes.length ≤ kBufBytes))
      (hv : ¬ (vs.length < kMaxArgs ∧ v.fits (packedBytes vs).length)) :
      (p.putRaw v.type v.bytes v.displayLen).1 = p := by
    rw [hfits, decide_eq_true_eq] at hv
    exact putRaw_refused h hv
  cases a with
  | bool v => exact hnum (v := .bool v) rfl hfull
  | signed v => exact hnum (v := .i64 v) rfl hfull
  | unsigned v => exact hnum (v := .u64 v) rfl hfull
  | floating bits => exact hnum (v := .f64 bits) rfl hfull
  | charArray v => exact hstr _ hfull
  | text v => exact hstr v hfull
  | charPtr v =>
      cases v with
      | none => exact hstr _ hfull
      | some s => exact hstr s hfull

theorem longestFitting_take {used : Nat} (hused : used ≤ kBufBytes) (s : Text) :
    Passed.LongestFitting used s (s.take (kBufBytes - used)) where
  is_prefix := List.take_prefix _ _
  fits := by
    rw [List.length_take]
    omega
  longest t ht hfit := by
    have := ht.length_le
    rw [List.length_take]
    omega

/-- What is kept of a passed argument is read as it. -/
theorem Passed.readAs_clip {used : Nat} (hused : used ≤ kBufBytes) (a : Passed) :
    a.ReadAs used (a.arg.value.clip used) := by
  cases a with
  | bool v => rfl
  | signed hw v => exact ⟨_, rfl, by simp [BitVec.toInt_signExtend_of_le hw]⟩
  | unsigned hw v => exact ⟨_, rfl, by simp [BitVec.toNat_setWidth_of_le hw]⟩
  | floating v =>
      refine ⟨rfl, ?_⟩
      rintro ⟨bits, hbits⟩
      rwa [hbits.toDouble_eq]
  | charArray v => exact ⟨_, rfl, longestFitting_take hused _⟩
  | charPtr v => exact ⟨_, rfl, longestFitting_take hused _⟩
  | text v => exact ⟨_, rfl, longestFitting_take hused _⟩

theorem Passed.fits_of_string {a : Passed} {s : Text} (hs : a.string? = some s) (used : Nat) :
    a.arg.value.fits used = true := by
  cases a with
  | charArray v => rfl
  | charPtr v => rfl
  | text v => rfl
  | _ => simp [Passed.string?] at hs

end

/-! ### Sequences of calls

By appending one call at a time. An entry is read from bytes that no later call writes, so
it is the same for ever after. -/

/-- What a sequence of arguments leaves in the pack. -/
def keptOf (args : List Passed) : List Value := ((args.map Passed.arg).map Arg.value).foldl keepOne []

theorem packed_stores (args : List Passed) : Stores (ArgPack.packed args) (keptOf args) :=
  foldl_packOne_stores Stores.empty _

theorem packed_append_singleton (args : List Passed) (a : Passed) :
    ArgPack.packed (args ++ [a]) = (ArgPack.packed args).packOne a.arg := by
  simp [ArgPack.packed, packArgs]

theorem keptOf_append_singleton (args : List Passed) (a : Passed) :
    keptOf (args ++ [a]) = keepOne (keptOf args) a.arg.value := by
  simp [keptOf]

theorem keptOf_prefix (args later : List Passed) : keptOf args <+: keptOf (args ++ later) := by
  have happend : keptOf (args ++ later) =
      ((later.map Passed.arg).map Arg.value).foldl keepOne (keptOf args) := by
    rw [keptOf, List.map_append, List.map_append, List.foldl_append, ← keptOf]
  rw [happend, foldl_keepOne]
  exact List.prefix_append _ _

/-- Entries stay as they are under every later call. -/
theorem entry_packed_append (args later : List Passed) {i : Nat}
    (hi : i < (ArgPack.packed args).count.toNat) :
    (ArgPack.packed (args ++ later)).entry i = (ArgPack.packed args).entry i := by
  have h := packed_stores args
  rw [h.count] at hi
  have hv : (keptOf args)[i]? = some (keptOf args)[i] := List.getElem?_eq_getElem hi
  have hv' : (keptOf (args ++ later))[i]? = some (keptOf args)[i] := by
    obtain ⟨more, hmore⟩ := keptOf_prefix args later
    rw [← hmore, List.getElem?_append_left hi, hv]
  rw [h.entry hv, (packed_stores (args ++ later)).entry hv']

/-- Whether the next argument finds an entry and room. It is a condition on the arguments so
far, and not on what the call answers. -/
def roomFor (args : List Passed) (a : Passed) : Prop :=
  (keptOf args).length < kMaxArgs ∧ a.arg.value.fits (packedBytes (keptOf args)).length

instance (args : List Passed) (a : Passed) : Decidable (roomFor args a) :=
  inferInstanceAs (Decidable (_ ∧ _))

theorem keptOf_of_roomFor {args : List Passed} {a : Passed} (h : roomFor args a) :
    keptOf (args ++ [a]) =
      keptOf args ++ [a.arg.value.clip (packedBytes (keptOf args)).length] := by
  rw [keptOf_append_singleton, keepOne]
  exact if_pos h

theorem packed_of_not_roomFor {args : List Passed} {a : Passed} (h : ¬ roomFor args a) :
    ArgPack.packed (args ++ [a]) = ArgPack.packed args := by
  rw [packed_append_singleton]
  exact (packed_stores args).packOne_refused h

/-- An argument is accepted exactly when there is an entry and room for it. -/
theorem accepted_iff_roomFor (args : List Passed) (a : Passed) :
    (ArgPack.packed args).count.toNat < (ArgPack.packed (args ++ [a])).count.toNat ↔
      roomFor args a := by
  refine ⟨fun hlt => ?_, fun hroom => ?_⟩
  · by_contra hroom
    rw [packed_of_not_roomFor hroom] at hlt
    exact absurd hlt (lt_irrefl _)
  · rw [(packed_stores args).count, (packed_stores _).count, keptOf_of_roomFor hroom,
      List.length_append]
    exact Nat.lt_succ_self _

/-- **Entries are intact, bounded and decodable.** After every sequence of `PackOne` calls
the entries lie back to back in the used part of the buffer and keep what they hold under
every later call; one more argument is either packed behind them, to be read as the value
passed (a floating point argument as the `double` it is cast to), or leaves the whole pack as
it is, a string only if all entries are taken. -/
theorem pack_intact (args : List Passed) :
    (ArgPack.packed args).Laid ∧
      (∀ later, ∀ i < (ArgPack.packed args).count.toNat,
        (ArgPack.packed (args ++ later)).entry i = (ArgPack.packed args).entry i) ∧
      ∀ a : Passed,
        if (ArgPack.packed args).count.toNat < (ArgPack.packed (args ++ [a])).count.toNat then
          (ArgPack.packed (args ++ [a])).count.toNat = (ArgPack.packed args).count.toNat + 1 ∧
            a.ReadAs (ArgPack.packed args).used.toNat
              ((ArgPack.packed (args ++ [a])).entry (ArgPack.packed args).count.toNat)
        else
          ArgPack.packed (args ++ [a]) = ArgPack.packed args ∧
            (a.string?.isSome → (ArgPack.packed args).count.toNat = kMaxArgs) := by
  have h := packed_stores args
  refine ⟨h.laid, fun later i hi => entry_packed_append args later hi, fun a => ?_⟩
  simp only [accepted_iff_roomFor]
  split_ifs with hroom
  · have h' := packed_stores (args ++ [a])
    rw [keptOf_of_roomFor hroom] at h'
    refine ⟨by rw [h'.count, h.count, List.length_append]; rfl, ?_⟩
    rw [h.count, h.used, h'.entry List.getElem?_concat_length]
    exact a.readAs_clip h.used_le
  · refine ⟨packed_of_not_roomFor hroom, fun hstring => ?_⟩
    obtain ⟨s, hs⟩ := Option.isSome_iff_exists.mp hstring
    have hfull : ¬ (keptOf args).length < kMaxArgs := fun hlt =>
      hroom ⟨hlt, Passed.fits_of_string hs _⟩
    rw [h.count]
    exact le_antisymm h.count_le (Nat.le_of_not_lt hfull)

/-- A byte behind a string: the pack has room for it, and the string is read as before. -/
theorem pack_intact_byte_behind_text :
    (ArgPack.packed [.text (ascii "ab"), .signed (w := 8) (by decide) (-2)]).entry 0 =
        (ArgPack.packed [.text (ascii "ab")]).entry 0 ∧
      (Passed.signed (w := 8) (by decide) (-2)).ReadAs 2
        ((ArgPack.packed [.text (ascii "ab"), .signed (w := 8) (by decide) (-2)]).entry 1) ∧
      ((Passed.text (ascii "c")).string?.isSome = true →
        (ArgPack.packed (List.replicate 8 (.bool true))).count.toNat = kMaxArgs) := by
  obtain ⟨-, hstable, hnext⟩ := pack_intact [.text (ascii "ab")]
  obtain ⟨-, -, hfull⟩ := pack_intact (List.replicate 8 (.bool true))
  have haccepted := hnext (.signed (w := 8) (by decide) (-2))
  have hrefused := hfull (.text (ascii "c"))
  rw [if_pos (by decide +kernel)] at haccepted
  rw [if_neg (by decide +kernel)] at hrefused
  exact ⟨hstable [.signed (w := 8) (by decide) (-2)] 0 (by decide +kernel), haccepted.2, hrefused.2⟩

/-- `0.1L` of the format with 64 bits of significand: `0xCCCCCCCCCCCCCCCD * 2 ^ -67`. -/
def tenth : Floating := .finite false (0xCCCCCCCCCCCCCCCD * 2 ^ (16494 - 67))

/-- `0.1L` is accepted, and what is read back is not the value that was passed. -/
theorem pack_narrows_tenth :
    (ArgPack.packed [.floating tenth]).count = 1 ∧
      (ArgPack.packed [.floating tenth]).entry 0 = .f64 0x3FB999999999999A ∧
      ¬ tenth.Is 0x3FB999999999999A := by
  refine ⟨?_, ?_, ?_⟩
  · decide +kernel
  · decide +kernel
  · decide +kernel

end XmBase.Telemetry
