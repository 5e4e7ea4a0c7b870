import XmBase.Lib.Layout
import XmBase.Concurrency.SeqlockRing
import XmBase.Concurrency.SpscQueue
/-!
# XmBase.Concurrency.RegionStorage

The model of `RegionStorage` (`include/xmbase/concurrency/storage.hpp`), the bump
allocator over a caller-provided region, and of the constructors that carve their
cells out of one: `SeqlockRing` behind `MessageSlot` and `MessageBuffer`, and
`SpscQueue`.

Offsets are relative to the region's base. `std::size_t` is 64-bit.

The determinism contract says that attachers construct the same objects in the
same order over the same region, "so the bump cursor yields identical offsets".
But every constructor takes its `Storage` **by value**: the cursor that moves is
the parameter's, and the caller's stays where it was. So objects constructed from
one `RegionStorage` object all start at the same offset (`construct_placed_iff`).
-/

namespace XmBase.Concurrency

/-- `sizeof` and `alignof` of a placed type. Both are what the compiler gives them: a
positive size, and a power of two. -/
structure PlacedType where
  size : Nat
  align : Nat
  size_pos : 0 < size
  align_pow : ∃ k < 64, align = 2 ^ k

/-- The members of `RegionStorage` that decide where things go. -/
structure RegionStorage where
  size : UInt64
  cursor : UInt64
  initializing : Bool
  deriving DecidableEq, Repr

namespace RegionStorage

/-- A carved array: its offset, the offset after it, and whether the overrun assertion held.
In a build without assertions an overrun goes on, so it is a flag here and no failure. -/
structure Carved where
  start : UInt64
  stop : UInt64
  fits : Bool
  deriving DecidableEq, Repr

/-- `RegionStorage(base, size, initialize)`. -/
def make (size : UInt64) (initializing : Bool) : RegionStorage := ⟨size, 0, initializing⟩

/-- `Carve<U>(count)`: the array, and the storage with its cursor advanced. A mask rounds
the cursor up to a multiple of the alignment, all in 64-bit arithmetic that may wrap. -/
def carve (U : PlacedType) (count : UInt64) (storage : RegionStorage) : Carved × RegionStorage :=
  let align : UInt64 := if UInt64.ofNat U.align < 64 then 64 else .ofNat U.align
  let start := (storage.cursor + align - 1) &&& ~~~(align - 1)
  let cursor := start + .ofNat U.size * count
  (⟨start, cursor, decide (cursor ≤ storage.size)⟩, { storage with cursor := cursor })

/-- `MakeSingle<U>()`. -/
def makeSingle (U : PlacedType) (storage : RegionStorage) : Carved × RegionStorage :=
  carve U 1 storage

/-- `MakeArray<U>(count)`. -/
def makeArray (U : PlacedType) (count : UInt64) (storage : RegionStorage) :
    Carved × RegionStorage :=
  carve U count storage

/-- `used()`. -/
def used (storage : RegionStorage) : UInt64 := storage.cursor

end RegionStorage

open RegionStorage (Carved makeSingle makeArray)

/-! ### The placed types -/

/-- `SeqlockRing<T, N>::Cell`: the sequence, the index and the payload words. -/
def cellType (T : PlacedType) : PlacedType where
  size := 8 * (2 + SeqlockRing.kWords T.size)
  align := 8
  size_pos := by omega
  align_pow := ⟨3, by decide, rfl⟩

/-- `SeqlockRing<T, N>::Header`. -/
def headerType : PlacedType where
  size := 8
  align := 8
  size_pos := by decide
  align_pow := ⟨3, by decide, rfl⟩

/-- `SpscQueue<T>::Control`: three words on a cache line each. -/
def controlType : PlacedType where
  size := 192
  align := 64
  size_pos := by decide
  align_pow := ⟨6, by decide, rfl⟩

/-! ### The constructors

Each takes its `Storage` by value, so a model of a constructor returns its parameter beside
what it carved, and the caller of one drops it (`constructAll`). That is the one line on
which everything under the last two heads turns. -/

/-- `SeqlockRing<T, N>(storage)`: what it carves, and its parameter afterwards. -/
def seqlockRing (T : PlacedType) (N : UInt64) (storage : RegionStorage) :
    List Carved × RegionStorage :=
  let (cells, storage) := makeArray (cellType T) N storage
  let (header, storage) := makeSingle headerType storage
  ([cells, header], storage)

/-- `SpscQueue<T>(depth, storage)`. -/
def spscQueue (T : PlacedType) (depth : UInt32) (storage : RegionStorage) :
    List Carved × RegionStorage :=
  let (ctrl, storage) := makeSingle controlType storage
  let (cells, storage) := makeArray T (SpscQueue.effectiveDepth depth).toUInt64 storage
  ([ctrl, cells], storage)

/-- An object to construct over a region. -/
inductive Placement
  | messageSlot (T : PlacedType)
  | messageBuffer (T : PlacedType) (N : UInt64) (hN : 0 < N.toNat)
  | spscQueue (T : PlacedType) (depth : UInt32)

/-- The object's constructor: what it carves, and its parameter afterwards. The
facades pass their parameter on to the ring's constructor, again by value. -/
def Placement.construct (storage : RegionStorage) : Placement → List Carved × RegionStorage
  | .messageSlot T => seqlockRing T 1 storage
  | .messageBuffer T N _ => seqlockRing T N storage
  | .spscQueue T depth => Concurrency.spscQueue T depth storage

/-- Construct the objects one after the other from one storage object: what they
carve, and that object afterwards. -/
def constructAll (storage : RegionStorage) : List Placement → List Carved × RegionStorage
  | [] => ([], storage)
  | o :: os =>
      -- the argument is copied: the advanced cursor dies with the parameter
      let (carved, _) := o.construct storage
      let (rest, storage) := constructAll storage os
      (carved ++ rest, storage)

/-! ### Exact offsets

The same layout over unbounded numbers, by `XmBase.Lib.Layout`. Below the wrap the mask
arithmetic is rounding up, and every statement about offsets is made once, over the exact
layout. -/

/-- A carve as an item of the exact layout. -/
def PlacedType.item (U : PlacedType) (count : Nat) : Layout.Item where
  align := max 64 U.align
  bytes := U.size * count
  pos := by omega

/-- What an object carves. -/
def Placement.items : Placement → List Layout.Item
  | .messageSlot T => [(cellType T).item 1, headerType.item 1]
  | .messageBuffer T N _ => [(cellType T).item N.toNat, headerType.item 1]
  | .spscQueue T depth =>
      [controlType.item 1, T.item (SpscQueue.effectiveDepth depth).toNat]

namespace RegionStorage

/-- The byte range of a carved array. -/
def Carved.range (c : Carved) : Nat × Nat := (c.start.toNat, c.stop.toNat)

/-- **`Carve` computes the exact layout** as long as that stays below the wrap. -/
theorem carve_exact (U : PlacedType) (count : UInt64) (storage : RegionStorage)
    (hfit : (U.item count.toNat).stop storage.cursor.toNat < 2 ^ 64) :
    (carve U count storage).1.range =
        ((U.item count.toNat).start storage.cursor.toNat, (U.item count.toNat).stop storage.cursor.toNat) ∧
      (carve U count storage).2.cursor.toNat = (U.item count.toNat).stop storage.cursor.toNat := by
  obtain ⟨k, hk, hpow⟩ := U.align_pow
  -- the alignment used is a power of two again
  have halign : ∃ j < 64, max 64 U.align = 2 ^ j ∧
      (if UInt64.ofNat U.align < 64 then (64 : UInt64) else .ofNat U.align) = .ofNat (2 ^ j) := by
    have hlt : 2 ^ k < 2 ^ 64 := Nat.pow_lt_pow_right (by decide) hk
    have hof : (UInt64.ofNat U.align).toNat = U.align := by
      rw [UInt64.toNat_ofNat', Nat.mod_eq_of_lt (by rw [hpow]; exact hlt)]
    by_cases h64 : U.align < 64
    · refine ⟨6, by decide, by omega, ?_⟩
      rw [if_pos (UInt64.lt_iff_toNat_lt.mpr (by rw [hof]; exact h64))]
      rfl
    · refine ⟨k, hk, by rw [← hpow]; omega, ?_⟩
      rw [if_neg (fun h => h64 (by rw [← hof]; exact UInt64.lt_iff_toNat_lt.mp h)), hpow]
  obtain ⟨j, hj, hmax, hif⟩ := halign
  have hstartEq : (U.item count.toNat).start storage.cursor.toNat =
      Layout.alignUp (2 ^ j) storage.cursor.toNat := by
    rw [← hmax]
    rfl
  have hle : (U.item count.toNat).start storage.cursor.toNat ≤
      (U.item count.toNat).stop storage.cursor.toNat := Nat.le_add_right _ _
  have hstart : ((storage.cursor + UInt64.ofNat (2 ^ j) - 1) &&& ~~~(UInt64.ofNat (2 ^ j) - 1)).toNat =
      (U.item count.toNat).start storage.cursor.toNat := by
    rw [hstartEq]
    exact Layout.toNat_mask hj (by rw [← hstartEq]; omega)
  have hbytes : (UInt64.ofNat U.size * count).toNat = U.size * count.toNat := by
    have hlt : U.size * count.toNat < 2 ^ 64 := by
      have : (U.item count.toNat).bytes ≤ (U.item count.toNat).stop storage.cursor.toNat :=
        Nat.le_add_left _ _
      exact this.trans_lt hfit
    rw [UInt64.toNat_mul, UInt64.toNat_ofNat', Nat.mod_mul_mod, Nat.mod_eq_of_lt hlt]
  have hstop : ((storage.cursor + UInt64.ofNat (2 ^ j) - 1 &&& ~~~(UInt64.ofNat (2 ^ j) - 1)) +
      UInt64.ofNat U.size * count).toNat = (U.item count.toNat).stop storage.cursor.toNat := by
    rw [Word.toNat_add_of_lt (by rw [hstart, hbytes]; exact hfit), hstart, hbytes]
    rfl
  simp only [carve, hif, Carved.range]
  exact ⟨Prod.ext hstart hstop, hstop⟩

/-- Two carves in turn, as every constructor makes them. -/
theorem carve_two_exact (U V : PlacedType) (count count' : UInt64) (storage : RegionStorage)
    (hfit : Layout.finish storage.cursor.toNat [U.item count.toNat, V.item count'.toNat] < 2 ^ 64) :
    [(carve U count storage).1, (carve V count' (carve U count storage).2).1].map Carved.range =
      Layout.place storage.cursor.toNat [U.item count.toNat, V.item count'.toNat] := by
  have hfirst := carve_exact U count storage
    ((Layout.le_finish [V.item count'.toNat] _).trans_lt hfit)
  have hsecond := carve_exact V count' (carve U count storage).2 (by rw [hfirst.2]; exact hfit)
  rw [hfirst.2] at hsecond
  rw [List.map_cons, List.map_cons, hfirst.1, hsecond.1]
  rfl

end RegionStorage

/-! ### One object

Whatever the object, it carves two arrays in turn and none of them is empty. From a fresh
storage the first one starts at the base, which is what makes a second object collide. -/

theorem Placement.construct_exact (o : Placement) (storage : RegionStorage)
    (hfit : Layout.finish storage.cursor.toNat o.items < 2 ^ 64) :
    (o.construct storage).1.map Carved.range = Layout.place storage.cursor.toNat o.items := by
  cases o with
  | messageSlot T => exact RegionStorage.carve_two_exact (cellType T) headerType 1 1 storage hfit
  | messageBuffer T N hN =>
      exact RegionStorage.carve_two_exact (cellType T) headerType N 1 storage hfit
  | spscQueue T depth =>
      have h := RegionStorage.carve_two_exact controlType T 1
        (SpscQueue.effectiveDepth depth).toUInt64 storage
      rw [UInt32.toNat_toUInt64] at h
      exact h hfit

/-- No carved array is empty. -/
theorem Placement.bytes_pos {o : Placement} {i : Layout.Item} (hi : i ∈ o.items) : 0 < i.bytes := by
  have hitem : ∀ (U : PlacedType) (n : Nat), 0 < n → 0 < (U.item n).bytes :=
    fun U n hn => Nat.mul_pos U.size_pos hn
  cases o with
  | messageSlot T =>
      rcases List.mem_pair.mp hi with rfl | rfl
      · exact hitem _ 1 (by decide)
      · exact hitem _ 1 (by decide)
  | messageBuffer T N hN =>
      rcases List.mem_pair.mp hi with rfl | rfl
      · exact hitem _ _ hN
      · exact hitem _ 1 (by decide)
  | spscQueue T depth =>
      rcases List.mem_pair.mp hi with rfl | rfl
      · exact hitem _ 1 (by decide)
      · exact hitem _ _ (SpscQueue.effectiveDepth_pos depth)

/-- What an object carves from a fresh storage starts at its base. -/
theorem Placement.place_zero (o : Placement) :
    ∃ b rest, Layout.place 0 o.items = (0, b) :: rest ∧ 0 < b := by
  obtain ⟨i, is, hitems⟩ : ∃ i is, o.items = i :: is := by
    cases o <;> exact ⟨_, _, rfl⟩
  have hstart : i.start 0 = 0 := Layout.alignUp_zero i.pos
  have hpos : 0 < i.bytes := Placement.bytes_pos (by rw [hitems]; exact List.mem_cons_self)
  refine ⟨i.stop 0, Layout.place (i.stop 0) is, ?_, Nat.lt_of_lt_of_le hpos (Nat.le_add_left _ _)⟩
  rw [hitems, Layout.place, hstart]

/-! ### Several objects

The determinism contract of the header, as a property of a list of objects (`WellPlaced`),
and the exact condition on the list for each of its parts. -/

/-- The caller's storage object is as before. No constructor is given the object itself,
only a copy. -/
theorem constructAll_storage (storage : RegionStorage) (objs : List Placement) :
    (constructAll storage objs).2 = storage := by
  induction objs with
  | nil => rfl
  | cons o os ih => exact ih

/-- **Every object is placed as if it were the only one.** -/
theorem constructAll_exact (storage : RegionStorage) (objs : List Placement)
    (hfit : Layout.finish storage.cursor.toNat (objs.flatMap Placement.items) < 2 ^ 64) :
    (constructAll storage objs).1.map Carved.range =
      objs.flatMap fun o => Layout.place storage.cursor.toNat o.items := by
  induction objs with
  | nil => rfl
  | cons o os ih =>
      rw [List.flatMap_cons, Layout.finish_append] at hfit
      have ho := o.construct_exact storage ((Layout.le_finish _ _).trans_lt hfit)
      have hos := ih ((Layout.finish_mono _ (Layout.le_finish _ _)).trans_lt hfit)
      show ((o.construct storage).1 ++ (constructAll storage os).1).map Carved.range = _
      rw [List.map_append, ho, hos, List.flatMap_cons]

/-- Two ranges share no byte. -/
def RangeDisjoint (r s : Nat × Nat) : Prop := r.2 ≤ s.1 ∨ s.2 ≤ r.1

/-- What placing objects in one region must give: ranges that are disjoint and in
construction order, and a cursor at the end of the last one. Without objects the cursor is
where it started. -/
structure WellPlaced (ranges : List (Nat × Nat)) (storage : RegionStorage) : Prop where
  disjoint : ranges.Pairwise RangeDisjoint
  inOrder : ranges.Pairwise fun r s => r.2 ≤ s.1
  used_eq : storage.used.toNat = (ranges.getLast?.map Prod.snd).getD 0

/-- The ranges of all that is carved when `objs` are constructed over a region. -/
def placedRanges (size : UInt64) (initializing : Bool) (objs : List Placement) :
    List (Nat × Nat) :=
  (constructAll (.make size initializing) objs).1.map Carved.range

/-- The storage object the constructors were given, afterwards. -/
def storageAfter (size : UInt64) (initializing : Bool) (objs : List Placement) : RegionStorage :=
  (constructAll (.make size initializing) objs).2

section

variable (size : UInt64) (initializing : Bool) (objs : List Placement)

theorem placedRanges_eq
    (hfit : Layout.finish 0 (objs.flatMap Placement.items) ≤ size.toNat) :
    placedRanges size initializing objs = objs.flatMap fun o => Layout.place 0 o.items :=
  constructAll_exact (.make size initializing) objs (hfit.trans_lt size.toNat_lt)

/-- Ranges of two objects share the first byte of the region. -/
theorem placedRanges_disjoint_iff
    (hfit : Layout.finish 0 (objs.flatMap Placement.items) ≤ size.toNat) :
    (placedRanges size initializing objs).Pairwise RangeDisjoint ↔ objs.length ≤ 1 := by
  rw [placedRanges_eq size initializing objs hfit]
  match objs with
  | [] => simp
  | [o] =>
      rw [List.flatMap_cons, List.flatMap_nil, List.append_nil]
      exact iff_of_true ((Layout.place_pairwise o.items 0).imp Or.inl) (Nat.le_refl 1)
  | o :: o' :: os =>
      obtain ⟨b, rest, ho, hb⟩ := o.place_zero
      obtain ⟨b', rest', ho', hb'⟩ := o'.place_zero
      refine iff_of_false ?_ (by simp)
      intro h
      rw [List.flatMap_cons, List.flatMap_cons, ho, ho', List.pairwise_append] at h
      have hcross := h.2.2 (0, b) List.mem_cons_self (0, b') (by simp)
      rcases hcross with h | h
      · exact absurd hb (Nat.not_lt.mpr h)
      · exact absurd hb' (Nat.not_lt.mpr h)

theorem placedRanges_inOrder_iff
    (hfit : Layout.finish 0 (objs.flatMap Placement.items) ≤ size.toNat) :
    ((placedRanges size initializing objs).Pairwise fun r s => r.2 ≤ s.1) ↔ objs.length ≤ 1 := by
  refine ⟨fun h => (placedRanges_disjoint_iff size initializing objs hfit).mp (h.imp Or.inl), ?_⟩
  intro hlen
  rw [placedRanges_eq size initializing objs hfit]
  match objs with
  | [] => exact List.Pairwise.nil
  | [o] =>
      rw [List.flatMap_cons, List.flatMap_nil, List.append_nil]
      exact Layout.place_pairwise o.items 0
  | o :: o' :: os => exact absurd hlen (by simp)

/-- The cursor has not moved, but every range ends after the base. -/
theorem storageAfter_used_iff
    (hfit : Layout.finish 0 (objs.flatMap Placement.items) ≤ size.toNat) :
    (storageAfter size initializing objs).used.toNat =
        ((placedRanges size initializing objs).getLast?.map Prod.snd).getD 0 ↔ objs = [] := by
  have hused : (storageAfter size initializing objs).used.toNat = 0 := by
    rw [storageAfter, constructAll_storage]
    rfl
  rw [hused, placedRanges_eq size initializing objs hfit]
  constructor
  · intro hlast
    by_contra hne
    obtain ⟨o, os, rfl⟩ := List.exists_cons_of_ne_nil hne
    obtain ⟨b, rest, ho, -⟩ := o.place_zero
    obtain ⟨r, hr⟩ : ∃ r, ((o :: os).flatMap fun o => Layout.place 0 o.items).getLast? = some r := by
      rw [List.flatMap_cons, ho, List.cons_append, List.getLast?_cons]
      exact ⟨_, rfl⟩
    obtain ⟨p, -, hp⟩ := List.mem_flatMap.mp (List.mem_of_getLast? hr)
    have hpos := Layout.lt_of_mem_place (fun i hi => Placement.bytes_pos hi) hp
    rw [hr] at hlast
    change 0 = r.2 at hlast
    omega
  · rintro rfl
    rfl

/-- **Objects constructed from one storage object are placed well exactly when there are
none**: `used()` is wrong after the first, and the second overlaps it. The statement holds
clause by clause: disjointness and order fail from two objects on, the cursor from one on. -/
theorem construct_placed_iff
    (hfit : Layout.finish 0 (objs.flatMap Placement.items) ≤ size.toNat) :
    (WellPlaced (placedRanges size initializing objs) (storageAfter size initializing objs) ↔
        objs = []) ∧
      ((placedRanges size initializing objs).Pairwise RangeDisjoint ↔ objs.length ≤ 1) ∧
      (((placedRanges size initializing objs).Pairwise fun r s => r.2 ≤ s.1) ↔
        objs.length ≤ 1) := by
  refine ⟨⟨fun h => (storageAfter_used_iff size initializing objs hfit).mp h.used_eq, ?_⟩,
    placedRanges_disjoint_iff size initializing objs hfit, placedRanges_inOrder_iff size initializing objs hfit⟩
  rintro rfl
  exact ⟨List.Pairwise.nil, List.Pairwise.nil, rfl⟩

end

/-! ### Two slots in one region -/

/-- An eight-byte message type. -/
def eightBytes : PlacedType where
  size := 8
  align := 8
  size_pos := by decide
  align_pow := ⟨3, by decide, rfl⟩

/-- Two message slots over a region of 1 KiB. -/
def twoSlots : List Placement := [.messageSlot eightBytes, .messageSlot eightBytes]

/-- The two slots share their cells, their headers, and no byte counts as used. -/
theorem twoSlots_overlap :
    Layout.finish 0 (twoSlots.flatMap Placement.items) ≤ (1024 : UInt64).toNat ∧
      placedRanges 1024 true twoSlots = [(0, 24), (64, 72), (0, 24), (64, 72)] ∧
      (storageAfter 1024 true twoSlots).used = 0 ∧
      ¬ WellPlaced (placedRanges 1024 true twoSlots) (storageAfter 1024 true twoSlots) := by
  refine ⟨by decide, by decide, by decide, ?_⟩
  intro h
  have hused := h.used_eq
  revert hused
  decide

theorem construct_placed_iff_twoSlots :
    ¬ (placedRanges 1024 true twoSlots).Pairwise RangeDisjoint := by
  intro h
  have hlen := (construct_placed_iff 1024 true twoSlots (by decide)).2.1.mp h
  exact absurd hlen (by decide)

end XmBase.Concurrency
