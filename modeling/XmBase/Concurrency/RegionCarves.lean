import XmBase.Concurrency.RegionStorage
/-!
# XmBase.Concurrency.RegionCarves

One `RegionStorage` object (`include/xmbase/concurrency/storage.hpp`) over any sequence of
`MakeSingle` and `MakeArray` calls, with the bytes the placement `new` of `Carve` writes.
The mask arithmetic is that of the exact layout (`carveAll_exact`), and everything else is
read off that layout: alignment, order, padding and the end. An initializing storage writes
in each range what the constructor of its elements writes, and nothing else; that can be
less than the range, since a constructor need not touch the padding of its type, nor a
member that it does not name (`region_bytes_unwritten`). An attaching storage writes nothing.

The overrun assertion is a flag of each carved array, and the calls go on behind one that
fired: that is the build without assertions. The build with them stops there, so its runs
are those where every flag is set.
-/

namespace XmBase.Concurrency.RegionCarves

open RegionStorage (Carved)

/-! ### The calls

`MakeSingle` and `MakeArray` with the placement `new` of each element. What a constructor
writes is a parameter of the type, byte by byte and with gaps, because it is `U()` that
decides it and no line of the allocator. -/

/-- A placed type and what `U()` writes to each of its bytes: padding and the members that
a constructor leaves alone have none. -/
structure Element extends PlacedType where
  value : Fin size → Option UInt8

/-- What is written to the byte `k` of an array of the type. -/
def Element.byteAt (U : Element) (k : Nat) : Option UInt8 :=
  U.value ⟨k % U.size, Nat.mod_lt k U.size_pos⟩

/-- A call on a storage object. -/
inductive Request
  | makeSingle (U : Element)
  | makeArray (U : Element) (count : UInt64)

namespace Request

def element : Request → Element
  | .makeSingle U => U
  | .makeArray U _ => U

def count : Request → UInt64
  | .makeSingle _ => 1
  | .makeArray _ count => count

/-- What the call asks for, in the exact layout. -/
def item (r : Request) : Layout.Item := r.element.item r.count.toNat

end Request

/-- What was last written to each byte of the region, and behind it; `none` where nothing was. -/
abbrev Writes := Nat → Option UInt8

/-- `::new (address) U()`. The bytes it does not write keep what they hold. -/
def placementNew (U : Element) (address : UInt64) (writes : Writes) : Writes := fun b =>
  if h : address.toNat ≤ b ∧ b < address.toNat + U.size then
    (U.value ⟨b - address.toNat, Nat.sub_lt_left_of_lt_add h.1 h.2⟩).or (writes b)
  else writes b

/-- The loop of `Carve` over the elements of the array at `start`. -/
def valueInitialize (U : Element) (start : UInt64) : (count : Nat) → Writes → Writes
  | 0, writes => writes
  | i + 1, writes =>
      placementNew U (start + .ofNat i * .ofNat U.size) (valueInitialize U start i writes)

/-- The array of a call, and the storage with its cursor advanced. -/
def Request.carve (storage : RegionStorage) : Request → Carved × RegionStorage
  | .makeSingle U => RegionStorage.makeSingle U.toPlacedType storage
  | .makeArray U count => RegionStorage.makeArray U.toPlacedType count storage

/-- The writes after a call. -/
def Request.write (storage : RegionStorage) (writes : Writes) (r : Request) : Writes :=
  if storage.initializing then
    valueInitialize r.element (r.carve storage).1.start r.count.toNat writes
  else writes

/-- What a sequence of calls gives: the arrays, the storage object and the writes. -/
structure Outcome where
  carved : List Carved
  storage : RegionStorage
  writes : Writes

/-- The calls one after the other. -/
def carveAll (storage : RegionStorage) (writes : Writes) : List Request → Outcome
  | [] => ⟨[], storage, writes⟩
  | r :: rs =>
      let rest := carveAll (r.carve storage).2 (r.write storage writes) rs
      { rest with carved := (r.carve storage).1 :: rest.carved }

/-! ### One call

A call in isolation: where its array is, by the exact layout, and which bytes it writes. The
array is written element by element, and an element's gaps keep what was there. -/

section

variable {storage : RegionStorage} {r : Request} {writes : Writes}

theorem Request.carve_eq (storage : RegionStorage) (r : Request) :
    r.carve storage = RegionStorage.carve r.element.toPlacedType r.count storage := by
  cases r <;> rfl

/-- A call moves the cursor only. Size and mode are those of the object that the calls
share. -/
theorem Request.carve_size (r : Request) (storage : RegionStorage) :
    (r.carve storage).2.size = storage.size := by
  rw [r.carve_eq]
  rfl

theorem Request.carve_initializing (r : Request) (storage : RegionStorage) :
    (r.carve storage).2.initializing = storage.initializing := by
  rw [r.carve_eq]
  rfl

/-- A call computes the exact layout, as long as that stays below the wrap. -/
theorem Request.carve_exact (hfit : r.item.stop storage.cursor.toNat < 2 ^ 64) :
    (r.carve storage).1.range =
        (r.item.start storage.cursor.toNat, r.item.stop storage.cursor.toNat) ∧
      (r.carve storage).2.cursor.toNat = r.item.stop storage.cursor.toNat := by
  rw [r.carve_eq]
  exact RegionStorage.carve_exact r.element.toPlacedType r.count storage hfit

/-- The initialized array, byte by byte: the induction is on the elements placed. No element
reaches into the next one, so each byte is decided by the one element that has it. -/
theorem valueInitialize_eq (U : Element) (start : UInt64) {n : Nat}
    (hfit : start.toNat + U.size * n < 2 ^ 64) (writes : Writes) (b : Nat) :
    valueInitialize U start n writes b =
      if start.toNat ≤ b ∧ b < start.toNat + U.size * n then
        (U.byteAt (b - start.toNat)).or (writes b)
      else writes b := by
  induction n with
  | zero =>
      rw [valueInitialize, if_neg]
      omega
  | succ n ih =>
      have hpos := U.size_pos
      rw [Nat.mul_succ] at hfit ⊢
      have haddress : (start + .ofNat n * .ofNat U.size).toNat = start.toNat + U.size * n := by
        have hmul : (UInt64.ofNat n * UInt64.ofNat U.size).toNat = U.size * n := by
          rw [← UInt64.ofNat_mul, UInt64.toNat_ofNat', Nat.mul_comm, Nat.mod_eq_of_lt (by omega)]
        rw [Word.toNat_add_of_lt (by rw [hmul]; omega), hmul]
      rw [valueInitialize, placementNew]
      simp only [haddress]
      by_cases hhere : start.toNat + U.size * n ≤ b ∧ b < start.toNat + U.size * n + U.size
      · -- the element that was placed last
        have hindex : (b - start.toNat) % U.size = b - (start.toNat + U.size * n) := by
          have hsplit : b - start.toNat = U.size * n + (b - (start.toNat + U.size * n)) := by omega
          rw [hsplit, Nat.mul_add_mod, Nat.mod_eq_of_lt (by omega)]
        rw [dif_pos hhere, if_pos (by omega), Element.byteAt, ih (by omega), if_neg (by omega)]
        simp only [hindex]
      · rw [dif_neg hhere, ih (by omega)]
        by_cases hbefore : start.toNat ≤ b ∧ b < start.toNat + U.size * n
        · rw [if_pos hbefore, if_pos (by omega)]
        · rw [if_neg hbefore, if_neg (by omega)]

/-- The byte lies in the array. -/
def Covers (c : Carved) (b : Nat) : Prop := c.start.toNat ≤ b ∧ b < c.stop.toNat

theorem Request.write_eq (hinit : storage.initializing = true)
    (hfit : r.item.stop storage.cursor.toNat < 2 ^ 64) (writes : Writes) (b : Nat) :
    (Covers (r.carve storage).1 b →
        r.write storage writes b =
          (r.element.byteAt (b - (r.carve storage).1.start.toNat)).or (writes b)) ∧
      (¬ Covers (r.carve storage).1 b → r.write storage writes b = writes b) := by
  obtain ⟨hrange, -⟩ := Request.carve_exact hfit
  obtain ⟨hstart, hstop⟩ := Prod.mk.inj hrange
  have hextent : r.item.stop storage.cursor.toNat =
      (r.carve storage).1.start.toNat + r.element.size * r.count.toNat := by
    rw [hstart]
    rfl
  have heq := valueInitialize_eq r.element (r.carve storage).1.start
    (by rw [← hextent]; exact hfit) writes b
  rw [← hextent, ← hstop] at heq
  rw [Request.write, if_pos hinit, heq]
  exact ⟨fun hb => if_pos hb, fun hb => if_neg hb⟩

end

/-! ### Sequences of calls

By induction on the calls, with the storage's cursor general. A later array starts behind
the earlier ones, so nothing that is written is written again. -/

section

variable {storage : RegionStorage} {writes : Writes} {rs : List Request}

theorem carveAll_cons (storage : RegionStorage) (writes : Writes) (r : Request) (rs : List Request) :
    carveAll storage writes (r :: rs) =
      ⟨(r.carve storage).1 :: (carveAll (r.carve storage).2 (r.write storage writes) rs).carved,
        (carveAll (r.carve storage).2 (r.write storage writes) rs).storage,
        (carveAll (r.carve storage).2 (r.write storage writes) rs).writes⟩ :=
  rfl

/-- The first call is below the wrap, and the others start where it ends. -/
theorem fit_cons {r : Request}
    (hfit : Layout.finish storage.cursor.toNat ((r :: rs).map Request.item) < 2 ^ 64) :
    r.item.stop storage.cursor.toNat < 2 ^ 64 ∧
      Layout.finish (r.carve storage).2.cursor.toNat (rs.map Request.item) < 2 ^ 64 := by
  have hfirst : r.item.stop storage.cursor.toNat < 2 ^ 64 :=
    (Layout.le_finish (rs.map Request.item) _).trans_lt hfit
  refine ⟨hfirst, ?_⟩
  rw [(Request.carve_exact hfirst).2]
  exact hfit

/-- **The calls compute the exact layout**, as long as its end is below the wrap: no cursor
on the way can have wrapped then either. -/
theorem carveAll_exact
    (hfit : Layout.finish storage.cursor.toNat (rs.map Request.item) < 2 ^ 64) (writes : Writes) :
    (carveAll storage writes rs).carved.map Carved.range =
        Layout.place storage.cursor.toNat (rs.map Request.item) ∧
      (carveAll storage writes rs).storage.cursor.toNat =
        Layout.finish storage.cursor.toNat (rs.map Request.item) := by
  induction rs generalizing storage writes with
  | nil => exact ⟨rfl, rfl⟩
  | cons r rs ih =>
      obtain ⟨hfirst, hrest⟩ := fit_cons hfit
      obtain ⟨hrange, hcursor⟩ := Request.carve_exact hfirst
      obtain ⟨hranges, hend⟩ := ih hrest (r.write storage writes)
      rw [hcursor] at hranges hend
      rw [carveAll_cons, List.map_cons, hrange, hranges]
      exact ⟨rfl, hend⟩

/-- The assertion compares with the size of the region. -/
theorem fits_eq {c : Carved} (hc : c ∈ (carveAll storage writes rs).carved) :
    c.fits = decide (c.stop ≤ storage.size) := by
  induction rs generalizing storage writes with
  | nil => cases hc
  | cons r rs ih =>
      rw [carveAll_cons] at hc
      rcases List.mem_cons.mp hc with rfl | hc
      · rw [r.carve_eq]
        rfl
      · rw [ih hc, r.carve_size]

/-- Where a sequence of calls places things depends on the cursor alone. -/
theorem carveAll_congr {storage' : RegionStorage} (hcursor : storage'.cursor = storage.cursor)
    (writes writes' : Writes) :
    (carveAll storage' writes' rs).carved.map Carved.range =
        (carveAll storage writes rs).carved.map Carved.range ∧
      (carveAll storage' writes' rs).storage.cursor = (carveAll storage writes rs).storage.cursor := by
  induction rs generalizing storage storage' writes writes' with
  | nil => exact ⟨rfl, hcursor⟩
  | cons r rs ih =>
      have hfirst : (r.carve storage').1.range = (r.carve storage).1.range ∧
          (r.carve storage').2.cursor = (r.carve storage).2.cursor := by
        simp only [r.carve_eq, RegionStorage.carve, Carved.range, hcursor, and_self]
      obtain ⟨hranges, hend⟩ := ih hfirst.2 (r.write storage writes) (r.write storage' writes')
      rw [carveAll_cons, carveAll_cons, List.map_cons, List.map_cons, hfirst.1, hranges]
      exact ⟨rfl, hend⟩

/-! What is written. -/

theorem writes_of_attaching (hinit : storage.initializing = false) :
    (carveAll storage writes rs).writes = writes := by
  induction rs generalizing storage writes with
  | nil => rfl
  | cons r rs ih =>
      have hwrite : r.write storage writes = writes := by
        rw [Request.write, hinit, if_neg Bool.false_ne_true]
      rw [carveAll_cons, hwrite]
      exact ih ((r.carve_initializing storage).trans hinit)

theorem writes_of_not_covers (hinit : storage.initializing = true)
    (hfit : Layout.finish storage.cursor.toNat (rs.map Request.item) < 2 ^ 64) {b : Nat}
    (hb : ∀ c ∈ (carveAll storage writes rs).carved, ¬ Covers c b) :
    (carveAll storage writes rs).writes b = writes b := by
  induction rs generalizing storage writes with
  | nil => rfl
  | cons r rs ih =>
      obtain ⟨hfirst, hrest⟩ := fit_cons hfit
      have hinit' := (r.carve_initializing storage).trans hinit
      rw [carveAll_cons] at hb ⊢
      obtain ⟨hhead, htail⟩ := List.forall_mem_cons.mp hb
      exact (ih hinit' hrest htail).trans ((Request.write_eq hinit hfirst writes b).2 hhead)

/-- The later arrays are behind the first one. They were carved with a cursor at or behind
its end. -/
theorem stop_le_of_later {r : Request} (hfit : Layout.finish storage.cursor.toNat
      ((r :: rs).map Request.item) < 2 ^ 64) {c : Carved}
    (hc : c ∈ (carveAll (r.carve storage).2 (r.write storage writes) rs).carved) :
    (r.carve storage).1.stop.toNat ≤ c.start.toNat := by
  obtain ⟨hfirst, hrest⟩ := fit_cons hfit
  obtain ⟨hranges, -⟩ := carveAll_exact hrest (r.write storage writes)
  obtain ⟨hrange, hcursor⟩ := Request.carve_exact hfirst
  have hstop : (r.carve storage).1.stop.toNat = r.item.stop storage.cursor.toNat :=
    (Prod.mk.inj hrange).2
  have hmem := List.mem_map_of_mem (f := Carved.range) hc
  rw [hranges, hcursor] at hmem
  rw [hstop]
  exact Layout.le_of_mem_place hmem

/-- A byte of an array keeps what its element wrote, if it wrote any: no other array has
that byte. -/
theorem writes_of_covers (hinit : storage.initializing = true)
    (hfit : Layout.finish storage.cursor.toNat (rs.map Request.item) < 2 ^ 64) {i : Nat} {r : Request}
    {c : Carved} (hr : rs[i]? = some r) (hc : (carveAll storage writes rs).carved[i]? = some c)
    {b : Nat} (hb : Covers c b) :
    (carveAll storage writes rs).writes b =
      (r.element.byteAt (b - c.start.toNat)).or (writes b) := by
  induction rs generalizing storage writes i with
  | nil => cases hr
  | cons r' rs ih =>
      obtain ⟨hfirst, hrest⟩ := fit_cons hfit
      have hinit' := (r'.carve_initializing storage).trans hinit
      rw [carveAll_cons] at hc ⊢
      cases i with
      | zero =>
          obtain rfl : r' = r := Option.some.inj hr
          obtain rfl : (r'.carve storage).1 = c := Option.some.inj hc
          have hlater : ∀ c' ∈ (carveAll (r'.carve storage).2 (r'.write storage writes) rs).carved,
              ¬ Covers c' b := fun c' hc' hcovers =>
            absurd (hb.2.trans_le (stop_le_of_later hfit hc')) (Nat.not_lt.mpr hcovers.1)
          exact (writes_of_not_covers hinit' hrest hlater).trans
            ((Request.write_eq hinit hfirst writes b).1 hb)
      | succ i =>
          have hfirst' : ¬ Covers (r'.carve storage).1 b := fun hcovers =>
            absurd (hcovers.2.trans_le (stop_le_of_later hfit (List.mem_of_getElem? hc)))
              (Nat.not_lt.mpr hb.1)
          rw [ih hinit' hrest hr hc, (Request.write_eq hinit hfirst writes b).2 hfirst']

end

/-! ### Whole sequences on a fresh storage object

The statement of the allocator's purpose: `LaidOut` for the ranges, and for every byte of
the region what was written to it. Only the exact end has to be below the wrap; the
assertion may fire. -/

/-- Where the array before the `i`-th ends. -/
def endBefore (carved : List Carved) (i : Nat) : Nat :=
  ((carved.take i).getLast?.map fun c => c.stop.toNat).getD 0

/-- The array of a call, where the bytes before it end at `before`. -/
structure PlacedBehind (before : Nat) (r : Request) (c : Carved) : Prop where
  aligned : max 64 r.element.align ∣ c.start.toNat
  extent : c.stop.toNat = c.start.toNat + r.element.size * r.count.toNat
  behind : before ≤ c.start.toNat
  padding : c.start.toNat - before < max 64 r.element.align

/-- The arrays of a sequence of calls, as a layout must have them. Between two arrays there
is never more padding than the alignment asks for. -/
structure LaidOut (rs : List Request) (carved : List Carved) (storage : RegionStorage) : Prop where
  length : carved.length = rs.length
  placed : ∀ {i : Nat} {r : Request} {c : Carved}, rs[i]? = some r → carved[i]? = some c →
    PlacedBehind (endBefore carved i) r c
  disjoint : (carved.map Carved.range).Pairwise RangeDisjoint
  increasing : (carved.map Carved.range).Pairwise fun r s => r.2 ≤ s.1
  used : storage.used.toNat = endBefore carved carved.length

/-- The exact end of what the calls ask for. -/
def exactEnd (rs : List Request) : Nat := Layout.finish 0 (rs.map Request.item)

/-- The calls on `RegionStorage(base, size, initializing)`; nothing is written yet. -/
def runCalls (size : UInt64) (initializing : Bool) (rs : List Request) : Outcome :=
  carveAll (.make size initializing) (fun _ => none) rs

section

variable {carved : List Carved} {rs : List Request}

theorem endBefore_eq (h : carved.map Carved.range = Layout.place 0 (rs.map Request.item)) (i : Nat) :
    endBefore carved i = Layout.finish 0 ((rs.map Request.item).take i) := by
  have hranges : ((carved.take i).map Carved.range).getLast? =
      (Layout.place 0 ((rs.map Request.item).take i)).getLast? := by
    rw [List.map_take, h, Layout.take_place]
  rw [Layout.finish_eq_getLast, ← hranges, List.getLast?_map, endBefore, Option.map_map]
  rfl

/-- Each array is where the exact layout has its item. So whatever holds of the layout holds
of the arrays. -/
theorem range_eq (h : carved.map Carved.range = Layout.place 0 (rs.map Request.item)) {i : Nat}
    {r : Request} {c : Carved} (hr : rs[i]? = some r) (hc : carved[i]? = some c) :
    c.start.toNat = r.item.start (endBefore carved i) ∧
      c.stop.toNat = r.item.stop (endBefore carved i) := by
  have hitem : (rs.map Request.item)[i]? = some r.item := by rw [List.getElem?_map, hr]; rfl
  have hplace := Layout.getElem?_place hitem 0
  rw [← h, List.getElem?_map, hc, ← endBefore_eq h i] at hplace
  exact Prod.mk.inj (Option.some.inj hplace)

/-- **The exact layout is laid out well.** It is a fact about placing in turn, and holds of
any arrays with these ranges. -/
theorem laidOut_of_place (h : carved.map Carved.range = Layout.place 0 (rs.map Request.item))
    {storage : RegionStorage}
    (hused : storage.cursor.toNat = Layout.finish 0 (rs.map Request.item)) :
    LaidOut rs carved storage := by
  have hlength : carved.length = rs.length := by
    rw [← List.length_map (f := Carved.range), h, Layout.length_place, List.length_map]
  have hpairs := Layout.place_pairwise (rs.map Request.item) 0
  rw [← h] at hpairs
  refine ⟨hlength, ?_, hpairs.imp .inl, hpairs, ?_⟩
  · intro i r c hr hc
    obtain ⟨hstart, hstop⟩ := range_eq h hr hc
    have hle := r.item.le_start (endBefore carved i)
    have hlt : r.item.start (endBefore carved i) < endBefore carved i + max 64 r.element.align :=
      Layout.alignUp_lt r.item.pos _
    refine ⟨?_, ?_, ?_, ?_⟩
    · rw [hstart]
      exact Layout.dvd_alignUp _ _
    · rw [hstop, hstart]
      rfl
    · rw [hstart]
      exact hle
    · rw [hstart]
      exact Nat.sub_lt_left_of_lt_add hle hlt
  · rw [endBefore_eq h, List.take_of_length_le (by rw [List.length_map, hlength])]
    exact hused

end

/-- A fresh storage object starts at its base. -/
theorem fit_make (size : UInt64) (initializing : Bool) {rs : List Request}
    (hfit : exactEnd rs < 2 ^ 64) :
    Layout.finish (RegionStorage.make size initializing).cursor.toNat (rs.map Request.item) < 2 ^ 64 :=
  hfit

theorem runCalls_laidOut (size : UInt64) (initializing : Bool) {rs : List Request}
    (hfit : exactEnd rs < 2 ^ 64) :
    LaidOut rs (runCalls size initializing rs).carved (runCalls size initializing rs).storage := by
  have hzero : (RegionStorage.make size initializing).cursor.toNat = 0 := rfl
  obtain ⟨hranges, hend⟩ :=
    carveAll_exact (fit_make size initializing hfit) fun _ => none
  rw [hzero] at hranges hend
  exact laidOut_of_place hranges hend

/-- What is written to a byte of an array is what its element's constructor writes there. -/
theorem writes_eq_byteAt (size : UInt64) {rs : List Request} (hfit : exactEnd rs < 2 ^ 64) {i : Nat}
    {r : Request} {c : Carved} (hr : rs[i]? = some r)
    (hc : (runCalls size true rs).carved[i]? = some c) {b : Nat} (hb : Covers c b) :
    (runCalls size true rs).writes b = r.element.byteAt (b - c.start.toNat) :=
  (writes_of_covers rfl (fit_make size true hfit) hr hc hb).trans (Option.or_none ..)

/-- A byte of no array is not written. Padding between the arrays is no exception. -/
theorem writes_eq_none (size : UInt64) {rs : List Request} (hfit : exactEnd rs < 2 ^ 64) {b : Nat}
    (hb : ∀ c ∈ (runCalls size true rs).carved, ¬ Covers c b) :
    (runCalls size true rs).writes b = none :=
  writes_of_not_covers rfl (fit_make size true hfit) hb

/-- **What the region allocator hands out.** For every sequence of calls whose exact end is
below the wrap: the arrays are laid out well; where no assertion fires they lie in the
region; an initializing storage writes to each byte of an array what the constructor of its
element writes there, if anything, and to no other byte; an attaching one writes nothing; and
any other storage object over the region gives the same ranges for the same calls. -/
theorem region_calls_laid_out (size : UInt64) (initializing : Bool) (rs : List Request)
    (hfit : exactEnd rs < 2 ^ 64) :
    LaidOut rs (runCalls size initializing rs).carved (runCalls size initializing rs).storage ∧
      ((∀ c ∈ (runCalls size initializing rs).carved, c.fits = true) →
        ∀ c ∈ (runCalls size initializing rs).carved, c.stop.toNat ≤ size.toNat) ∧
      (initializing = true → ∀ b,
        ((∀ c ∈ (runCalls size initializing rs).carved, ¬ Covers c b) →
          (runCalls size initializing rs).writes b = none) ∧
        ∀ {i : Nat} {r : Request} {c : Carved}, rs[i]? = some r →
          (runCalls size initializing rs).carved[i]? = some c → Covers c b →
          (runCalls size initializing rs).writes b = r.element.byteAt (b - c.start.toNat)) ∧
      (initializing = false → ∀ b, (runCalls size initializing rs).writes b = none) ∧
      ∀ size' initializing',
        (runCalls size' initializing' rs).carved.map Carved.range =
            (runCalls size initializing rs).carved.map Carved.range ∧
          (runCalls size' initializing' rs).storage.used =
            (runCalls size initializing rs).storage.used := by
  refine ⟨runCalls_laidOut size initializing hfit, ?_, ?_, ?_, ?_⟩
  · intro hfits c hc
    have hflag := (fits_eq hc).symm.trans (hfits c hc)
    exact UInt64.le_iff_toNat_le.mp (of_decide_eq_true hflag)
  · intro hinit b
    subst hinit
    exact ⟨fun hb => writes_eq_none size hfit hb, fun hr hc hb => writes_eq_byteAt size hfit hr hc hb⟩
  · intro hinit b
    subst hinit
    rw [runCalls, writes_of_attaching rfl]
  · intro size' initializing'
    -- the two objects differ in what `Carve` does not look at
    have hcursor : (RegionStorage.make size' initializing').cursor =
        (RegionStorage.make size initializing).cursor := rfl
    exact carveAll_congr hcursor _ _

/-- An atomic word. -/
def word : Element where
  toPlacedType := eightBytes
  value := fun _ => some 0

/-- A type on two cache lines, of which the second is padding. -/
def twoLines : Element where
  size := 128
  align := 128
  size_pos := by decide
  align_pow := ⟨7, by decide, rfl⟩
  value := fun k => if k.val < 64 then some (.ofNat k) else none

/-- A word, three words and two of the larger type, with 96 bytes between the arrays. -/
theorem region_calls_laid_out_three :
    (runCalls 512 true [.makeSingle word, .makeArray word 3, .makeArray twoLines 2]).carved.map
        Carved.range = [(0, 8), (64, 88), (128, 384)] ∧
      (runCalls 512 true [.makeSingle word, .makeArray word 3, .makeArray twoLines 2]).writes 257 =
        some 1 ∧
      (runCalls 512 true [.makeSingle word, .makeArray word 3, .makeArray twoLines 2]).writes 383 =
        none ∧
      (runCalls 512 true [.makeSingle word, .makeArray word 3, .makeArray twoLines 2]).storage.used =
        384 := by
  have hranges : (runCalls 512 true [.makeSingle word, .makeArray word 3,
      .makeArray twoLines 2]).carved.map Carved.range = [(0, 8), (64, 88), (128, 384)] := by
    decide +kernel
  obtain ⟨hlaid, -, hwrites, -, -⟩ := region_calls_laid_out 512 true
    [.makeSingle word, .makeArray word 3, .makeArray twoLines 2] (by decide)
  have hget : (runCalls 512 true [.makeSingle word, .makeArray word 3,
      .makeArray twoLines 2]).carved[2]? = some ⟨128, 384, true⟩ := by decide +kernel
  refine ⟨hranges, ?_, ?_, ?_⟩
  · exact (hwrites rfl 257).2 (i := 2) rfl hget ⟨by decide, by decide⟩
  · exact (hwrites rfl 383).2 (i := 2) rfl hget ⟨by decide, by decide⟩
  · apply UInt64.toNat_inj.mp
    rw [hlaid.used]
    decide +kernel

/-- A flag that the constructor sets and a word that it leaves alone, as
`struct alignas(8) S { S() : valid(0) {} std::uint32_t valid; std::uint32_t raw; }`. -/
def flagged : Element where
  toPlacedType := eightBytes
  value := fun k => if k.val < 4 then some 0 else none

/-- A range of an initializing storage whose bytes are not all initialized: no assertion
fires, the byte 4 lies in the range, and nothing is written to it. -/
theorem region_bytes_unwritten :
    exactEnd [.makeSingle flagged] < 2 ^ 64 ∧
      ∃ c ∈ (runCalls 64 true [.makeSingle flagged]).carved, c.fits = true ∧ Covers c 4 ∧
        (runCalls 64 true [.makeSingle flagged]).writes 4 = none := by
  refine ⟨by decide, ⟨0, 8, true⟩, ?_, rfl, ⟨by decide, by decide⟩, ?_⟩
  · decide +kernel
  · decide +kernel

end XmBase.Concurrency.RegionCarves
