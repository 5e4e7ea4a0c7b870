import XmBase.Lib.FlatMemory
import XmBase.Lib.Run
import XmBase.Concurrency.RegionStorage
/-!
# XmBase.Concurrency.RegionRing

A ring **hosted in a region** (`SeqlockRing<T, N, RegionStorage>`): its words are bytes of
a flat region, reached through views. A view is a ring object; it holds the two offsets
its constructor carved, and only the first one constructed writes to the region. Next to
it, the ring on the heap, whose words are the locations of `XmBase.Concurrency.SeqlockRing`.

Any number of threads use the ring, call by call, through any view that exists when the
call is made; their accesses interleave in any order, and a thread may be killed inside a
call. **Whatever they do, the results are those of the ring on the heap**
(`region_equivalent_heap`).

Offsets are relative to the region's base, which is 64-aligned.
-/

namespace XmBase.Concurrency.RegionRing

open Atomic (Access)
open FlatMemory (execAt storeWord zeroFill contents Placed)
open SeqlockRing (Loc Val Mem StorePc RepairPc ReadPc BoundedFrame SnapshotFrame LoadResult kWords)

/-! ### The layout

`StorageBytes()` as the header computes it, and where a view looks for a word of the ring.
An address is an offset computed from the view's own two handles, so two views agree on a
word only if their constructors carved the same offsets. -/

/-- `RoundUpCacheLine(bytes)`. -/
def roundUpCacheLine (bytes : UInt64) : UInt64 := (bytes + 63) &&& ~~~63

/-- `CellBytes()`. -/
def cellBytes (T : PlacedType) : UInt64 := .ofNat (cellType T).size

/-- `StorageBytes()`. -/
@[irreducible] def storageBytes (T : PlacedType) (N : Nat) : UInt64 :=
  roundUpCacheLine (cellBytes T * .ofNat N) + .ofNat headerType.size

/-- The region: as many bytes as the ring asks for. -/
abbrev Region (T : PlacedType) (N : Nat) := Vector UInt8 (storageBytes T N).toNat

/-- `cells_` and `header_`. -/
structure Handles where
  cells : UInt64
  header : UInt64
  deriving DecidableEq, Repr

/-- Where a view finds a word of the ring: the members of `cells_[n]` and of `*header_`. -/
def Handles.address (T : PlacedType) (N : Nat) (h : Handles) : Loc N T.size → Nat
  | .seq n => h.cells.toNat + n.val * (cellType T).size
  | .index n => h.cells.toNat + n.val * (cellType T).size + 8
  | .words n i => h.cells.toNat + n.val * (cellType T).size + 16 + 8 * i.val
  | .writeCount => h.header.toNat

/-! ### Construction

Two writes are modelled apart: the placement `new` of `Carve` fills the arrays with zeros,
and then the ring's constructor stores its zeros word by word. Both happen only where the
storage is an initializing one, and a write outside of the region would be a failure. -/

section

variable {n : Nat}

/-- `::new U()` for each of the `count` elements of the array at `start`. -/
def valueInitialize (U : PlacedType) (start count : Nat) (bytes : Vector UInt8 n) :
    Option (Vector UInt8 n) :=
  (List.range count).foldlM (fun bytes i => zeroFill bytes (start + i * U.size) U.size) bytes

/-- `Carve<U>(count)`: where the array starts, the storage with its cursor advanced, and
the bytes. The overrun assertion is a failure. -/
def carveIn (U : PlacedType) (count : UInt64) (storage : RegionStorage) (bytes : Vector UInt8 n) :
    Option (UInt64 × RegionStorage × Vector UInt8 n) := do
  let (carved, storage) := RegionStorage.carve U count storage
  guard carved.fits
  let bytes ←
    if storage.initializing then valueInitialize U carved.start.toNat count.toNat bytes
    else some bytes
  some (carved.start, storage, bytes)

/-- The words an initializing constructor stores zeros to, in its order. -/
def zeroOrder (N size : Nat) : List (Loc N size) :=
  .writeCount :: (List.finRange N).flatMap fun n =>
    .seq n :: .index n :: (List.finRange (kWords size)).map (.words n)

end

/-- A constructed ring; `storage` is the constructor's parameter when it returns. -/
structure View where
  handles : Handles
  storage : RegionStorage
  deriving DecidableEq, Repr

/-- `SeqlockRing<T, N>(RegionStorage(base, StorageBytes(), initialize))`. -/
def construct (T : PlacedType) (N : Nat) (initializing : Bool) (bytes : Region T N) :
    Option (View × Region T N) := do
  let storage := RegionStorage.make (storageBytes T N) initializing
  let (cells, storage, bytes) ← carveIn (cellType T) (.ofNat N) storage bytes
  let (header, storage, bytes) ← carveIn headerType 1 storage bytes
  let handles : Handles := ⟨cells, header⟩
  let bytes ←
    if storage.initializing then
      (zeroOrder N T.size).foldlM (fun bytes l => storeWord bytes (handles.address T N l) 0) bytes
    else some bytes
  some (⟨handles, storage⟩, bytes)

/-! ### Calls -/

/-- A call with its arguments. -/
inductive Call (size : Nat)
  | store (value : Payload size)
  | load (out : Payload size)
  | loadBounded (out : Payload size) (maxRetries : UInt32)
  | snapshot (out : Nat → Payload size) (k : Nat)
  | repairAfterWriterCrash

/-- What a call returns, with the caller's `out` afterwards. -/
inductive Result (size : Nat)
  | stored
  | loaded (found : Bool) (out : Payload size)
  | loadedBounded (result : LoadResult) (out : Payload size)
  | snapped (n : Nat) (out : Nat → Payload size)
  | repaired

/-- A thread inside a call. It is the frame of the call, and says nothing about where the
words are. -/
inductive Activity (size : Nat)
  | store (value : Payload size) (pc : StorePc)
  | load (out : Payload size) (pc : ReadPc)
  | loadBounded (out : Payload size) (maxRetries : UInt32) (frame : BoundedFrame)
  | snapshot (k : Nat) (frame : SnapshotFrame size)
  | repairAfterWriterCrash (pc : RepairPc)

/-- A call at its first access. -/
def Activity.enter {size : Nat} : Call size → Activity size
  | .store value => .store value .loadCount
  | .load out => .load out .capture
  | .loadBounded out maxRetries => .loadBounded out maxRetries ⟨0, .capture⟩
  | .snapshot out k => .snapshot k ⟨0, out, .capture⟩
  | .repairAfterWriterCrash => .repairAfterWriterCrash .loadCount

/-- The next access of a call: afterwards it goes on or returns. -/
def Activity.access {N size : Nat} [NeZero N] :
    Activity size → Access (Val N size) (Activity size ⊕ Result size)
  | .store value pc => (SeqlockRing.store value pc).map
      (Sum.map (.store value) fun _ => .stored)
  | .load out pc => (SeqlockRing.load out pc).map
      (Sum.map (.load out) fun r => .loaded r.1 r.2)
  | .loadBounded out maxRetries frame => (SeqlockRing.loadBounded out maxRetries frame).map
      (Sum.map (.loadBounded out maxRetries) fun r => .loadedBounded r.1 r.2)
  | .snapshot k frame => (SeqlockRing.snapshot k frame).map
      (Sum.map (.snapshot k) fun r => .snapped r.1 r.2)
  | .repairAfterWriterCrash pc => (SeqlockRing.repairAfterWriterCrash pc).map
      (Sum.map .repairAfterWriterCrash fun _ => .repaired)

/-- Who does what. A label that is not possible in a state is no step. -/
inductive Label (size : Nat) (ν τ : Type)
  /-- View `v` is constructed with `initialize = false`. -/
  | attach (v : ν)
  /-- View `v` is destroyed. -/
  | detach (v : ν)
  /-- Thread `t` makes a call through view `v`. -/
  | call (t : τ) (v : ν) (c : Call size)
  /-- Thread `t` performs its next atomic access. -/
  | access (t : τ)
  /-- Thread `t` is killed at the current step boundary. -/
  | kill (t : τ)

/-! ### The ring on the heap -/

/-- `SeqlockRing<T, N>(HeapStorage())`: `new Cell[N]()` throws when the array has more than
`PTRDIFF_MAX` bytes. -/
def heapRing (T : PlacedType) (N : Nat) : Option (Mem N T.size) :=
  if (cellType T).size * N < 2 ^ 63 then some (SeqlockRing.zeroed N T.size) else none

/-- One ring on the heap. `live` only says which names for it are in use. -/
structure HeapWorld (N size : Nat) (ν τ : Type) where
  mem : Mem N size
  live : ν → Bool
  threads : τ → Option (Activity size)
  results : List (τ × Result size)

section

variable {N size : Nat} {ν τ : Type}

variable [DecidableEq ν] [DecidableEq τ]

/-- After the ring was constructed. -/
def HeapWorld.start (τ : Type) (v₀ : ν) (mem : Mem N size) : HeapWorld N size ν τ :=
  ⟨mem, fun v => decide (v = v₀), fun _ => none, []⟩

/-- One step on the heap. `attach` and `detach` only keep the books. -/
def HeapWorld.step [NeZero N] (w : HeapWorld N size ν τ) :
    Label size ν τ → Option (HeapWorld N size ν τ)
  | .attach v => if w.live v then none else some { w with live := Function.update w.live v true }
  | .detach v => if w.live v then some { w with live := Function.update w.live v false } else none
  | .call t v c =>
      match w.live v, w.threads t with
      | true, none => some { w with threads := Function.update w.threads t (some (.enter c)) }
      | _, _ => none
  | .access t =>
      match w.threads t with
      | none => none
      | some activity =>
          match activity.access.exec w.mem with
          | (mem, .inl activity') => some { w with
              mem := mem
              threads := Function.update w.threads t (some activity') }
          | (mem, .inr result) => some { w with
              mem := mem
              threads := Function.update w.threads t none
              results := w.results ++ [(t, result)] }
  | .kill t =>
      match w.threads t with
      | none => none
      | some _ => some { w with threads := Function.update w.threads t none }

end

/-! ### The ring in the region

The words are bytes, and each access of a thread goes through the handles of the view it
made its call through. A view that is destroyed leaves the calls made through it alone,
which keep its handles. -/

/-- The bytes of the region, the handles of the live views, and the threads, each with the
handles it uses. -/
structure RegionWorld (T : PlacedType) (N : Nat) (ν τ : Type) where
  bytes : Region T N
  views : ν → Option Handles
  threads : τ → Option (Handles × Activity T.size)
  results : List (τ × Result T.size)

section

variable {T : PlacedType} {N : Nat} {ν τ : Type} [DecidableEq ν] [DecidableEq τ]

/-- After the first view was constructed. -/
def RegionWorld.start (τ : Type) (v₀ : ν) (view : View) (bytes : Region T N) :
    RegionWorld T N ν τ :=
  ⟨bytes, fun v => if v = v₀ then some view.handles else none, fun _ => none, []⟩

/-- One step in the region. An attaching view runs its whole constructor. -/
def RegionWorld.step [NeZero N] (w : RegionWorld T N ν τ) :
    Label T.size ν τ → Option (RegionWorld T N ν τ)
  | .attach v =>
      match w.views v, construct T N false w.bytes with
      | none, some (view, bytes) => some { w with
          bytes := bytes
          views := Function.update w.views v (some view.handles) }
      | _, _ => none
  | .detach v =>
      match w.views v with
      | some _ => some { w with views := Function.update w.views v none }
      | none => none
  | .call t v c =>
      match w.views v, w.threads t with
      | some handles, none => some { w with
          threads := Function.update w.threads t (some (handles, .enter c)) }
      | _, _ => none
  | .access t =>
      match w.threads t with
      | none => none
      | some (handles, activity) =>
          match execAt (handles.address T N) w.bytes activity.access with
          | none => none
          | some (bytes, .inl activity') => some { w with
              bytes := bytes
              threads := Function.update w.threads t (some (handles, activity')) }
          | some (bytes, .inr result) => some { w with
              bytes := bytes
              threads := Function.update w.threads t none
              results := w.results ++ [(t, result)] }
  | .kill t =>
      match w.threads t with
      | none => none
      | some _ => some { w with threads := Function.update w.threads t none }

end

/-! ### Where the words are

Any two words of the ring have addresses at least eight bytes apart, inside the region. This
is the only fact about the layout that the simulation needs: by `XmBase.Lib.FlatMemory` a
store to one word is then invisible in every other. -/

section

variable {T : PlacedType} {N : Nat}

/-- The handles of every view: the cells at the base, the header on the next cache line. -/
def layout (T : PlacedType) (N : Nat) : Handles := ⟨0, roundUpCacheLine (cellBytes T * .ofNat N)⟩

/-- The layout is below the wrap of `std::size_t`. -/
def Fits (T : PlacedType) (N : Nat) : Prop :=
  Layout.alignUp 64 ((cellType T).size * N) + headerType.size < 2 ^ 64

instance (T : PlacedType) (N : Nat) : Decidable (Fits T N) := inferInstanceAs (Decidable (_ < _))

theorem toNat_roundUpCacheLine {bytes : UInt64} (h : Layout.alignUp 64 bytes.toNat < 2 ^ 64) :
    (roundUpCacheLine bytes).toNat = Layout.alignUp 64 bytes.toNat := by
  have hmask : roundUpCacheLine bytes =
      (bytes + UInt64.ofNat (2 ^ 6) - 1) &&& ~~~(UInt64.ofNat (2 ^ 6) - 1) := by
    rw [roundUpCacheLine, UInt64.sub_eq_add_neg, UInt64.add_assoc]
    rfl
  rw [hmask]
  exact Layout.toNat_mask (by decide) h

theorem Fits.toNat_cells (h : Fits T N) :
    (cellBytes T * UInt64.ofNat N).toNat = (cellType T).size * N := by
  have hle : (cellType T).size * N ≤ Layout.alignUp 64 ((cellType T).size * N) :=
    Layout.le_alignUp (by decide) _
  have hlt : (cellType T).size * N < 2 ^ 64 := by
    unfold Fits at h
    omega
  rw [cellBytes, ← UInt64.ofNat_mul, UInt64.toNat_ofNat', Nat.mod_eq_of_lt hlt]

theorem Fits.toNat_header (h : Fits T N) :
    (layout T N).header.toNat = Layout.alignUp 64 ((cellType T).size * N) := by
  rw [layout, toNat_roundUpCacheLine, h.toNat_cells]
  rw [h.toNat_cells]
  exact (Nat.le_add_right ..).trans_lt h

theorem Fits.toNat_storageBytes (h : Fits T N) :
    (storageBytes T N).toNat = Layout.alignUp 64 ((cellType T).size * N) + headerType.size := by
  have hheader : (roundUpCacheLine (cellBytes T * .ofNat N)).toNat =
      Layout.alignUp 64 ((cellType T).size * N) := h.toNat_header
  have hsize : (UInt64.ofNat headerType.size).toNat = headerType.size := rfl
  rw [storageBytes, Word.toNat_add_of_lt, hheader, hsize]
  rw [hheader, hsize]
  exact h

/-- An array the heap can hold is below the wrap in a region too. -/
theorem fits_of_heapRing {mem : Mem N T.size} (h : heapRing T N = some mem) :
    Fits T N ∧ mem = SeqlockRing.zeroed N T.size := by
  unfold heapRing at h
  split at h
  · next hlt =>
    refine ⟨?_, (Option.some.inj h).symm⟩
    have hround : Layout.alignUp 64 ((cellType T).size * N) ≤ (cellType T).size * N + 64 - 1 :=
      Nat.div_mul_le_self ..
    have hheader : headerType.size = 8 := rfl
    unfold Fits
    omega
  · cases h

/-- The cell of a word and the word's place in it; none for the header's. -/
def cellWord {size : Nat} : Loc N size → Option (Fin N × Nat)
  | .seq n => some (n, 0)
  | .index n => some (n, 1)
  | .words n i => some (n, 2 + i.val)
  | .writeCount => none

theorem cellWord_injective {size : Nat} : Function.Injective (@cellWord N size) := by
  intro l l' h
  cases l <;> cases l' <;> simp_all [cellWord] <;> omega

theorem cellWord_lt {size : Nat} {l : Loc N size} {p : Fin N × Nat} (h : cellWord l = some p) :
    p.2 < 2 + kWords size := by
  cases l <;> simp only [cellWord, Option.some.injEq, reduceCtorEq] at h <;> subst h <;> simp
  omega

/-- Words are numbered through the cells. The words of one cell follow each other, and the
cells do. -/
theorem address_of_cellWord {l : Loc N T.size} {p : Fin N × Nat} (h : cellWord l = some p) :
    (layout T N).address T N l = 8 * (p.1.val * (2 + kWords T.size) + p.2) := by
  have hbase : (layout T N).cells.toNat = 0 := rfl
  have hcell : ∀ n : Fin N,
      n.val * (cellType T).size = 8 * (n.val * (2 + kWords T.size)) := fun n =>
    Nat.mul_left_comm ..
  cases l <;> simp only [cellWord, Option.some.injEq, reduceCtorEq] at h <;> subst h <;>
    simp only [Handles.address, hbase, hcell] <;> omega

theorem cellWord_eq_none {size : Nat} {l : Loc N size} (h : cellWord l = none) :
    l = .writeCount := by
  cases l <;> first | rfl | cases h

/-- The words of the cells end before the header. -/
theorem Fits.address_cell_le (hfit : Fits T N) {l : Loc N T.size} {p : Fin N × Nat}
    (h : cellWord l = some p) :
    (layout T N).address T N l + 8 ≤ (layout T N).address T N (.writeCount : Loc N T.size) := by
  have hword := cellWord_lt h
  have hcells : (cellType T).size * N ≤ Layout.alignUp 64 ((cellType T).size * N) :=
    Layout.le_alignUp (by decide) _
  have hnext : (p.1.val + 1) * (2 + kWords T.size) ≤ N * (2 + kWords T.size) :=
    Nat.mul_le_mul_right _ p.1.isLt
  have hsize : (cellType T).size * N = 8 * (N * (2 + kWords T.size)) := by
    rw [Nat.mul_comm]
    exact Nat.mul_left_comm ..
  have hheader : (layout T N).address T N (.writeCount : Loc N T.size) =
      Layout.alignUp 64 ((cellType T).size * N) := hfit.toNat_header
  rw [address_of_cellWord h, hheader]
  rw [Nat.succ_mul] at hnext
  omega

theorem row_column_unique {m a b i j : Nat} (hi : i < m) (hj : j < m)
    (h : a * m + i = b * m + j) : a = b ∧ i = j := by
  obtain rfl : i = j := by
    have hmod := congrArg (· % m) h
    simpa only [Nat.mul_add_mod_of_lt hi, Nat.mul_add_mod_of_lt hj] using hmod
  exact ⟨Nat.eq_of_mul_eq_mul_right (Nat.zero_lt_of_lt hi) (Nat.add_right_cancel h), rfl⟩

/-- Every word of the ring has its own eight bytes of the region. -/
theorem Fits.placed (hfit : Fits T N) :
    Placed ((layout T N).address T N) (storageBytes T N).toNat := by
  have hheader : (layout T N).address T N (.writeCount : Loc N T.size) + 8 =
      (storageBytes T N).toNat := by
    rw [hfit.toNat_storageBytes, ← hfit.toNat_header]
    rfl
  constructor
  · intro l
    cases hl : cellWord l with
    | none => exact (cellWord_eq_none hl ▸ hheader).le
    | some p =>
        have := hfit.address_cell_le hl
        omega
  · intro l l' hne
    cases hl : cellWord l with
    | none =>
        obtain rfl := cellWord_eq_none hl
        cases hl' : cellWord l' with
        | none => exact absurd (cellWord_eq_none hl').symm hne
        | some p' => exact .inr (hfit.address_cell_le hl')
    | some p =>
        cases hl' : cellWord l' with
        | none =>
            obtain rfl := cellWord_eq_none hl'
            exact .inl (hfit.address_cell_le hl)
        | some p' =>
            rw [address_of_cellWord hl, address_of_cellWord hl']
            have hindex : p.1.val * (2 + kWords T.size) + p.2 ≠
                p'.1.val * (2 + kWords T.size) + p'.2 := by
              intro heq
              obtain ⟨hcell, hplace⟩ := row_column_unique (cellWord_lt hl) (cellWord_lt hl') heq
              exact hne (cellWord_injective (by rw [hl, hl', Prod.ext (Fin.ext hcell) hplace]))
            omega

/-! ### What a constructor does

Every constructor over the region finds the same offsets, since each starts from a fresh
cursor; this is what makes the region shareable. The initializing one is run once, before
anybody else is there. -/

theorem exists_foldlM {α β : Type} {f : β → α → Option β} {l : List α}
    (h : ∀ a ∈ l, ∀ b, ∃ b', f b a = some b') (b : β) : ∃ b', l.foldlM f b = some b' := by
  induction l generalizing b with
  | nil => exact ⟨b, rfl⟩
  | cons a l ih =>
      obtain ⟨b₁, hb₁⟩ := h a List.mem_cons_self b
      obtain ⟨b', hb'⟩ := ih (fun a' ha' => h a' (List.mem_cons_of_mem a ha')) b₁
      exact ⟨b', by rw [List.foldlM_cons, hb₁]; exact hb'⟩

theorem exists_valueInitialize {n : Nat} {U : PlacedType} {start count : Nat}
    (h : start + U.size * count ≤ n) (bytes : Vector UInt8 n) :
    ∃ bytes', valueInitialize U start count bytes = some bytes' := by
  refine exists_foldlM ?_ bytes
  intro i hi b
  refine ⟨_, if_pos ?_⟩
  have hlast : (i + 1) * U.size ≤ count * U.size :=
    Nat.mul_le_mul_right _ (List.mem_range.mp hi)
  rw [Nat.succ_mul] at hlast
  rw [Nat.mul_comm] at h
  omega

/-- A carve that ends inside the region succeeds, and without initialization it touches
nothing. -/
theorem carveIn_eq {n : Nat} (U : PlacedType) (count : UInt64) (storage : RegionStorage)
    (bytes : Vector UInt8 n) (hsize : storage.size.toNat = n)
    (hfit : (U.item count.toNat).stop storage.cursor.toNat ≤ n) :
    ∃ bytes', carveIn U count storage bytes = some ((RegionStorage.carve U count storage).1.start,
        (RegionStorage.carve U count storage).2, bytes') ∧
      (storage.initializing = false → bytes' = bytes) := by
  obtain ⟨hrange, -⟩ := RegionStorage.carve_exact U count storage
    (hfit.trans_lt (hsize ▸ storage.size.toNat_lt))
  have hstart : (RegionStorage.carve U count storage).1.start.toNat =
      (U.item count.toNat).start storage.cursor.toNat := congrArg Prod.fst hrange
  have hstop : (RegionStorage.carve U count storage).1.stop.toNat =
      (U.item count.toNat).stop storage.cursor.toNat := congrArg Prod.snd hrange
  have hfits : (RegionStorage.carve U count storage).1.fits = true := by
    refine decide_eq_true (UInt64.le_iff_toNat_le.mpr ?_)
    rw [hsize]
    exact hstop.le.trans hfit
  have hinit : (RegionStorage.carve U count storage).2.initializing = storage.initializing := rfl
  have hinside : (RegionStorage.carve U count storage).1.start.toNat + U.size * count.toNat ≤ n := by
    rw [hstart]
    exact hfit
  obtain ⟨zeroed, hzeroed⟩ := exists_valueInitialize hinside bytes
  cases hcase : storage.initializing with
  | true =>
      refine ⟨zeroed, ?_, nofun⟩
      simp only [carveIn, hfits, guard_true, hinit, hcase, if_true, hzeroed]
      rfl
  | false =>
      refine ⟨bytes, ?_, fun _ => rfl⟩
      simp only [carveIn, hfits, guard_true, hinit, hcase]
      rfl

/-- The cells, carved from a fresh storage. -/
theorem Fits.carve_cells (hfit : Fits T N) (initializing : Bool) :
    ((cellType T).item (UInt64.ofNat N).toNat).stop 0 ≤ (storageBytes T N).toNat ∧
    (RegionStorage.carve (cellType T) (.ofNat N) (.make (storageBytes T N) initializing)).1.start = 0 ∧
    (RegionStorage.carve (cellType T) (.ofNat N)
      (.make (storageBytes T N) initializing)).2.cursor.toNat = (cellType T).size * N := by
  have hle : (cellType T).size * N ≤ Layout.alignUp 64 ((cellType T).size * N) :=
    Layout.le_alignUp (by decide) _
  have hcount : (UInt64.ofNat N).toNat = N := by
    have hN : N ≤ (cellType T).size * N := Nat.le_mul_of_pos_left N (cellType T).size_pos
    have hlt := hfit
    unfold Fits at hlt
    rw [UInt64.toNat_ofNat', Nat.mod_eq_of_lt (by omega)]
  have hstart : ((cellType T).item (UInt64.ofNat N).toNat).start 0 = 0 :=
    Layout.alignUp_zero (Layout.Item.pos _)
  have hstop : ((cellType T).item (UInt64.ofNat N).toNat).stop 0 = (cellType T).size * N := by
    rw [Layout.Item.stop, hstart, hcount, Nat.zero_add]
    rfl
  have hinside : ((cellType T).item (UInt64.ofNat N).toNat).stop 0 ≤ (storageBytes T N).toNat := by
    rw [hstop, hfit.toNat_storageBytes]
    omega
  obtain ⟨hrange, hcursor⟩ := RegionStorage.carve_exact (cellType T) (.ofNat N)
    (.make (storageBytes T N) initializing) (hinside.trans_lt (storageBytes T N).toNat_lt)
  refine ⟨hinside, ?_, hcursor.trans hstop⟩
  exact UInt64.toNat_inj.mp ((congrArg Prod.fst hrange).trans hstart)

/-- The header, carved after them. It is the next multiple of the cache line, which is what
`roundUpCacheLine` computes. -/
theorem Fits.carve_header (hfit : Fits T N) {storage : RegionStorage}
    (hcursor : storage.cursor.toNat = (cellType T).size * N) :
    (headerType.item (1 : UInt64).toNat).stop storage.cursor.toNat ≤ (storageBytes T N).toNat ∧
    (RegionStorage.carve headerType 1 storage).1.start = (layout T N).header ∧
    (RegionStorage.carve headerType 1 storage).2.cursor = storageBytes T N := by
  have hstop : (headerType.item (1 : UInt64).toNat).stop storage.cursor.toNat =
      (storageBytes T N).toNat := by
    rw [hcursor, hfit.toNat_storageBytes]
    rfl
  obtain ⟨hrange, hcursor'⟩ := RegionStorage.carve_exact headerType 1 storage
    (hstop ▸ (storageBytes T N).toNat_lt)
  refine ⟨hstop.le, ?_, UInt64.toNat_inj.mp (hcursor'.trans hstop)⟩
  refine UInt64.toNat_inj.mp ((congrArg Prod.fst hrange).trans ?_)
  rw [hfit.toNat_header, hcursor]
  rfl

theorem mem_zeroOrder {size : Nat} (l : Loc N size) : l ∈ zeroOrder N size := by
  cases l <;> simp [zeroOrder]

/-- **A constructor** finds the layout and uses up the region; an initializing one leaves
the ring zeroed, another one leaves every byte as it was. -/
theorem Fits.construct_eq (hfit : Fits T N) (initializing : Bool) (bytes : Region T N) :
    ∃ view bytes', construct T N initializing bytes = some (view, bytes') ∧
      view.handles = layout T N ∧ view.storage.used = storageBytes T N ∧
      (initializing = true →
        contents ((layout T N).address T N) bytes' = SeqlockRing.zeroed N T.size) ∧
      (initializing = false → bytes' = bytes) := by
  obtain ⟨hcells, hstart, hcursor⟩ := hfit.carve_cells initializing
  obtain ⟨bytes₁, hcarve₁, hsame₁⟩ := carveIn_eq (cellType T) (.ofNat N)
    (.make (storageBytes T N) initializing) bytes rfl hcells
  obtain ⟨hheader, hstart', hused⟩ := hfit.carve_header hcursor
  obtain ⟨bytes₂, hcarve₂, hsame₂⟩ := carveIn_eq headerType 1 _ bytes₁ rfl hheader
  rw [hstart] at hcarve₁
  rw [hstart'] at hcarve₂
  obtain ⟨bytes₃, hstore, hcontents⟩ :=
    hfit.placed.storeAll 0 (zeroOrder N T.size) bytes₂
  cases initializing with
  | true =>
      refine ⟨⟨layout T N, _⟩, bytes₃, ?_, rfl, hused, ?_, nofun⟩
      · simp only [construct, hcarve₁, Option.bind_eq_bind, Option.bind_some, hcarve₂]
        exact congrArg (Option.bind · _) hstore
      · intro _
        funext l
        rw [hcontents, if_pos (mem_zeroOrder l)]
        rfl
  | false =>
      obtain rfl := hsame₁ rfl
      obtain rfl := hsame₂ rfl
      refine ⟨⟨layout T N, _⟩, bytes₂, ?_, rfl, hused, nofun, fun _ => rfl⟩
      simp only [construct, hcarve₁, Option.bind_eq_bind, Option.bind_some, hcarve₂]
      rfl

end

/-! ### The simulation

Step by step, the region does what the heap does. The relation reads the words of the ring
out of the bytes and asks that every live view, and every thread, has the handles of the
layout. -/

section

variable {T : PlacedType} {N : Nat} {ν τ : Type} {w : RegionWorld T N ν τ}
  {g : HeapWorld N T.size ν τ}

/-- The region holds the words of the ring on the heap, and every view finds them. So the
two worlds answer the same, and an access that is possible in one is possible in the other. -/
structure Related (w : RegionWorld T N ν τ) (g : HeapWorld N T.size ν τ) : Prop where
  mem : contents ((layout T N).address T N) w.bytes = g.mem
  views : ∀ v, w.views v = if g.live v then some (layout T N) else none
  threads : ∀ t, w.threads t = (g.threads t).map (Prod.mk (layout T N))
  results : w.results = g.results

theorem update_map {α β γ : Type} [DecidableEq α] {f : α → Option γ} {f' : α → Option β} {k : β → γ}
    (h : ∀ a, f a = (f' a).map k) (a : α) (b : Option β) (a' : α) :
    Function.update f a (b.map k) a' = (Function.update f' a b a').map k := by
  by_cases ha : a' = a
  · subst ha
    rw [Function.update_self, Function.update_self]
  · rw [Function.update_of_ne ha, Function.update_of_ne ha, h]

variable [DecidableEq ν] [DecidableEq τ]

omit [DecidableEq τ] in
/-- A view comes or goes. The bytes and the threads are as before. -/
theorem Related.updateView (h : Related w g) (v : ν) (live : Bool) :
    Related { w with views := Function.update w.views v (if live then some (layout T N) else none) }
      { g with live := Function.update g.live v live } where
  mem := h.mem
  views v' := by
    by_cases hv : v' = v
    · subst hv
      simp only [Function.update_self]
    · simp only [Function.update_of_ne hv, h.views]
  threads := h.threads
  results := h.results

omit [DecidableEq ν] in
/-- A thread moves. Both sides give it the same place in its call. -/
theorem Related.updateThread (h : Related w g) (t : τ) (activity : Option (Activity T.size))
    {bytes : Region T N} {mem : Mem N T.size}
    (hmem : contents ((layout T N).address T N) bytes = mem)
    {results results' : List (τ × Result T.size)} (hresults : results = results') :
    Related
      { w with
        bytes := bytes
        threads := Function.update w.threads t (activity.map (Prod.mk (layout T N)))
        results := results }
      { g with
        mem := mem
        threads := Function.update g.threads t activity
        results := results' } where
  mem := hmem
  views := h.views
  threads := update_map h.threads t activity
  results := hresults

omit [DecidableEq τ] in
theorem related_start {view : View} {bytes : Region T N} (hhandles : view.handles = layout T N)
    (hmem : contents ((layout T N).address T N) bytes = SeqlockRing.zeroed N T.size) (v₀ : ν) :
    Related (RegionWorld.start τ v₀ view bytes)
      (HeapWorld.start τ v₀ (SeqlockRing.zeroed N T.size)) where
  mem := hmem
  views v := by
    simp [RegionWorld.start, HeapWorld.start, hhandles]
  threads _ := rfl
  results := rfl

variable [NeZero N]

/-- The step lemma: both rings do the same, or neither does anything. -/
theorem Related.step (hfit : Fits T N) (h : Related w g) (l : Label T.size ν τ) :
    Option.Rel Related (w.step l) (g.step l) := by
  cases l with
  | attach v =>
      -- attaching writes nothing and finds the handles of the creator
      obtain ⟨view, bytes, hconstruct, hhandles, -, -, hsame⟩ := hfit.construct_eq false w.bytes
      obtain rfl := hsame rfl
      have hv := h.views v
      cases hlive : g.live v with
      | true =>
          simp only [hlive, if_true] at hv
          simp only [RegionWorld.step, HeapWorld.step, hv, hlive, if_true]
          exact .none
      | false =>
          simp only [hlive, Bool.false_eq_true, if_false] at hv
          simp only [RegionWorld.step, HeapWorld.step, hv, hlive, hconstruct, hhandles,
            Bool.false_eq_true, if_false]
          exact .some (h.updateView v true)
  | detach v =>
      have hv := h.views v
      cases hlive : g.live v with
      | true =>
          simp only [hlive, if_true] at hv
          simp only [RegionWorld.step, HeapWorld.step, hv, hlive, if_true]
          exact .some (h.updateView v false)
      | false =>
          simp only [hlive, Bool.false_eq_true, if_false] at hv
          simp only [RegionWorld.step, HeapWorld.step, hv, hlive, Bool.false_eq_true, if_false]
          exact .none
  | call t v c =>
      have hv := h.views v
      have ht := h.threads t
      cases hlive : g.live v with
      | false =>
          simp only [hlive, Bool.false_eq_true, if_false] at hv
          simp only [RegionWorld.step, HeapWorld.step, hv, hlive]
          exact .none
      | true =>
          simp only [hlive, if_true] at hv
          cases hthread : g.threads t with
          | none =>
              simp only [hthread, Option.map_none] at ht
              simp only [RegionWorld.step, HeapWorld.step, hv, hlive, ht, hthread]
              exact .some (h.updateThread t (some (.enter c)) h.mem h.results)
          | some activity =>
              simp only [hthread, Option.map_some] at ht
              simp only [RegionWorld.step, HeapWorld.step, hv, hlive, ht, hthread]
              exact .none
  | access t =>
      have ht := h.threads t
      cases hthread : g.threads t with
      | none =>
          simp only [hthread, Option.map_none] at ht
          simp only [RegionWorld.step, HeapWorld.step, ht, hthread]
          exact .none
      | some activity =>
          simp only [hthread, Option.map_some] at ht
          -- an access to the bytes is the access to the words that are read out of them
          obtain ⟨bytes, hexec, hmem⟩ := hfit.placed.execAt_eq w.bytes activity.access
          rw [h.mem] at hexec hmem
          simp only [RegionWorld.step, HeapWorld.step, ht, hthread, hexec]
          generalize activity.access.exec g.mem = after at hmem ⊢
          obtain ⟨mem, activity' | result⟩ := after
          · exact .some (h.updateThread t (some activity') hmem h.results)
          · exact .some (h.updateThread t none hmem (by rw [h.results]))
  | kill t =>
      have ht := h.threads t
      cases hthread : g.threads t with
      | none =>
          simp only [hthread, Option.map_none] at ht
          simp only [RegionWorld.step, HeapWorld.step, ht, hthread]
          exact .none
      | some activity =>
          simp only [hthread, Option.map_some] at ht
          simp only [RegionWorld.step, HeapWorld.step, ht, hthread]
          exact .some (h.updateThread t none h.mem h.results)

/-- Views come and go without a trace in the region. A constructor that is told not to
initialize only computes offsets. -/
theorem RegionWorld.bytes_of_attach (hfit : Fits T N) {w' : RegionWorld T N ν τ} {v : ν}
    (h : w.step (.attach v) = some w') : w'.bytes = w.bytes := by
  obtain ⟨view, bytes, hconstruct, -, -, -, hsame⟩ := hfit.construct_eq false w.bytes
  obtain rfl := hsame rfl
  simp only [RegionWorld.step, hconstruct] at h
  split at h
  · next heq =>
    obtain ⟨-, rfl⟩ := Prod.mk.inj (Option.some.inj heq)
    obtain rfl := Option.some.inj h
    rfl
  · cases h

theorem RegionWorld.bytes_of_detach {w' : RegionWorld T N ν τ} {v : ν}
    (h : w.step (.detach v) = some w') : w'.bytes = w.bytes := by
  simp only [RegionWorld.step] at h
  split at h
  · obtain rfl := Option.some.inj h
    rfl
  · cases h

end

/-- Through any number of views of a region of `StorageBytes()` bytes, the first one
initializing, the threads get the results they get from the ring on the heap, whatever
they call, however their accesses interleave and whenever views come and go. The carves of
every view, initializing or not, use up the region, no view reaches a byte outside of it,
and no byte changes when a view comes or goes. -/
theorem region_equivalent_heap (T : PlacedType) (N : Nat) [NeZero N] (mem : Mem N T.size)
    (hheap : heapRing T N = some mem) (bytes₀ : Region T N) :
    ∃ view bytes, construct T N true bytes₀ = some (view, bytes) ∧
      view.storage.used = storageBytes T N ∧
      (∀ initializing bytes₁, ∃ view' bytes₂,
        construct T N initializing bytes₁ = some (view', bytes₂) ∧
          view'.storage.used = storageBytes T N) ∧
      ∀ (ν τ : Type) [DecidableEq ν] [DecidableEq τ] (v₀ : ν) (ls : List (Label T.size ν τ)),
        (Run.exec RegionWorld.step (RegionWorld.start τ v₀ view bytes) ls).map RegionWorld.results =
          (Run.exec HeapWorld.step (HeapWorld.start τ v₀ mem) ls).map HeapWorld.results ∧
        ∀ w, Run.exec RegionWorld.step (RegionWorld.start τ v₀ view bytes) ls = some w →
          (∀ t handles activity, w.threads t = some (handles, activity) →
            ∀ l : Loc N T.size, handles.address T N l + 8 ≤ (storageBytes T N).toNat) ∧
          (∀ v w', w.step (.attach v) = some w' → w'.bytes = w.bytes) ∧
          (∀ v w', w.step (.detach v) = some w' → w'.bytes = w.bytes) := by
  obtain ⟨hfit, rfl⟩ := fits_of_heapRing hheap
  obtain ⟨view, bytes, hconstruct, hhandles, hused, hzeroed, -⟩ := hfit.construct_eq true bytes₀
  refine ⟨view, bytes, hconstruct, hused, ?_, ?_⟩
  · intro initializing bytes₁
    obtain ⟨view', bytes₂, hview', -, hused', -⟩ := hfit.construct_eq initializing bytes₁
    exact ⟨view', bytes₂, hview', hused'⟩
  intro ν τ _ _ v₀ ls
  have hrel : Option.Rel Related (Run.exec RegionWorld.step (RegionWorld.start τ v₀ view bytes) ls)
      (Run.exec HeapWorld.step (HeapWorld.start τ v₀ (SeqlockRing.zeroed N T.size)) ls) :=
    Run.exec_rel (fun h l => h.step hfit l) ls (related_start hhandles (hzeroed rfl) v₀)
  generalize Run.exec RegionWorld.step (RegionWorld.start τ v₀ view bytes) ls = after at hrel ⊢
  generalize Run.exec HeapWorld.step (HeapWorld.start τ v₀ (SeqlockRing.zeroed N T.size)) ls =
    after' at hrel ⊢
  cases hrel with
  | none => exact ⟨rfl, nofun⟩
  | @some w g h =>
      refine ⟨congrArg some h.results, ?_⟩
      rintro _ ⟨⟩
      refine ⟨?_, fun v w' => w.bytes_of_attach hfit, fun v w' => w.bytes_of_detach⟩
      intro t handles activity ht
      rw [h.threads] at ht
      obtain ⟨_, -, hpair⟩ := Option.map_eq_some_iff.mp ht
      obtain ⟨rfl, -⟩ := Prod.mk.inj hpair
      exact hfit.placed.inside

/-- A store through the first view, and a load through one attached afterwards. -/
def storeThenAttach : List (Label eightBytes.size Bool Unit) :=
  .call () true (.store #v[1, 2, 3, 4, 5, 6, 7, 8]) :: List.replicate 7 (.access ()) ++
    .attach false :: .call () false (.load #v[0, 0, 0, 0, 0, 0, 0, 0]) :: List.replicate 5 (.access ())

/-- In a region of 136 bytes that holds anything, both calls return. -/
theorem region_equivalent_heap_storeThenAttach :
    storageBytes eightBytes 4 = 136 ∧
    ∃ view bytes, construct eightBytes 4 true (Vector.replicate _ 0xFF) = some (view, bytes) ∧
      view.storage.used = storageBytes eightBytes 4 ∧
      (Run.exec RegionWorld.step (RegionWorld.start Unit true view bytes) storeThenAttach).map
        (fun w => w.results.length) = some 2 := by
  obtain ⟨view, bytes, hconstruct, hused, -, hruns⟩ := region_equivalent_heap eightBytes 4 _
    (if_pos (by decide)) (Vector.replicate _ 0xFF)
  refine ⟨by decide +kernel, view, bytes, hconstruct, hused, ?_⟩
  have hresults := congrArg (Option.map List.length) (hruns Bool Unit true storeThenAttach).1
  rw [Option.map_map, Option.map_map] at hresults
  refine hresults.trans ?_
  decide +kernel

end XmBase.Concurrency.RegionRing
