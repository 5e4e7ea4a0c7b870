import XmBase.Lib.Atomic
import XmBase.Lib.Bytes
/-!
# XmBase.Concurrency.SeqlockRing

The model of `detail::SeqlockRing<T, N>`
(`include/xmbase/concurrency/detail/seqlock_ring.hpp`): the seqlock overwrite
ring behind `MessageSlot<T>` (`N = 1`) and `MessageBuffer<T, N>`.

* The payload type `T` is trivially copyable, so a value of it is its object
  representation: `sizeof(T)` bytes.
* The placed storage is a memory over `Loc`: per cell the sequence word, the
  write index and the `kWords` payload words, and the header's `write_count`.
  Every location is a `std::atomic<std::uint64_t>`.
* Each verb is a `Code`: one constructor of its program counter per atomic
  access, in the order of the source, so that a schedule can cut a copy at any
  word. Memory orders do not appear; the semantics is sequentially consistent,
  and the thread fences, which access nothing, are no steps.

The copy loops' program counters stand for the loop *head*: with words left the
next access is the word, with none left it is the one after the loop.
-/

namespace XmBase.Concurrency

open Atomic (Access Code)
open Bytes (toWords ofWords)

/-- A value of the trivially copyable `T`: its `sizeof(T)` bytes. Padding bytes belong to
it: `memcpy` copies them, and so does the ring. -/
abbrev Payload (size : Nat) := Vector UInt8 size

namespace SeqlockRing

/-- `kWords`: words that hold one `T`. The last word of an odd size is filled up with zeros. -/
def kWords (size : Nat) : Nat := (size + 8 - 1) / 8

/-- The ring's atomic words: the fields of `Cell` for each of the `N` cells, and the field
of `Header`. That the cells and the header lie apart in memory is a matter of the layout,
and proved there (`XmBase.Concurrency.RegionRing`). -/
inductive Loc (N size : Nat)
  | seq (n : Fin N)
  | index (n : Fin N)
  | words (n : Fin N) (i : Fin (kWords size))
  | writeCount
  deriving DecidableEq

/-- Every location holds a 64-bit word. -/
abbrev Val (N size : Nat) : Loc N size → Type := fun _ => UInt64

/-- The contents of the placed cells and header. A heap ring and a region ring have the same
contents; they differ in where the words are. -/
abbrev Mem (N size : Nat) := Loc N size → UInt64

/-- The storage as an initializing constructor leaves it: a zero cursor, and in every cell a
zero sequence, a zero index and zero words. Zero is even and says "never written", so every
cell reads as empty. -/
def zeroed (N size : Nat) : Mem N size := fun _ => 0

variable {N size : Nat} [NeZero N]

/-- The cell a position lives in: `cells_[p % N]`. Two positions share a cell exactly if
they differ by a multiple of `N`. -/
def cellOf (p : Nat) : Fin N := Fin.ofNat N p

/-! ### The writer

There is one writer at a time, so `Store` loads the cursor and the cell's sequence plainly
and needs no read-modify-write. Of its stores three matter to everybody else: the odd
sequence that opens the cell, the even one that closes it (W2), and the cursor that
publishes the position (W3). A writer that dies between them leaves the cell odd, or closed
and not published, or as it was. -/

/-- Program counter of `Store`: one constructor for each atomic access, in the order of the
source. What a constructor carries are the locals that are live there. -/
inductive StorePc
  /-- `write_count.load`. -/
  | loadCount
  /-- `c.seq.load`. -/
  | loadSeq (idx : UInt64)
  /-- `c.seq.store(s + 1)`: odd, in progress. -/
  | storeOdd (idx s : UInt64)
  /-- `c.index.store(idx)`. -/
  | storeIndex (idx s : UInt64)
  /-- Head of the word loop; past the last word, `c.seq.store(s + 2)` (W2). -/
  | copy (idx s : UInt64) (i : Nat)
  /-- `write_count.store(idx + 1)` (W3). -/
  | storeCount (idx : UInt64)
  deriving DecidableEq, Repr

/-- `Store(value)`. The words are copied one access at a time, and the writer may be killed
before any of them. -/
def store (value : Payload size) : Code (Val N size) StorePc Unit
  | .loadCount => .load .writeCount fun idx => .inl (.loadSeq idx)
  | .loadSeq idx => .load (.seq (cellOf idx.toNat)) fun s => .inl (.storeOdd idx s)
  | .storeOdd idx s => .store (.seq (cellOf idx.toNat)) (s + 1) (.inl (.storeIndex idx s))
  | .storeIndex idx s => .store (.index (cellOf idx.toNat)) idx (.inl (.copy idx s 0))
  | .copy idx s i =>
      if h : i < kWords size then
        .store (.words (cellOf idx.toNat) ⟨i, h⟩) (toWords value i) (.inl (.copy idx s (i + 1)))
      else
        .store (.seq (cellOf idx.toNat)) (s + 2) (.inl (.storeCount idx))
  | .storeCount idx => .store .writeCount (idx + 1) (.inr ())

/-- Program counter of `RepairAfterWriterCrash`. Only the cell the cursor points at is
looked at: it is the one a killed writer can have been in. -/
inductive RepairPc
  /-- `write_count.load`. -/
  | loadCount
  /-- `c.seq.load`. -/
  | loadSeq (idx : UInt64)
  /-- `c.seq.store(0)`, reached only from an odd sequence. -/
  | reset (idx : UInt64)
  deriving DecidableEq, Repr

/-- `RepairAfterWriterCrash()`: an odd sequence is set back to zero, so the cell reads as
never written until the next store. -/
def repairAfterWriterCrash : Code (Val N size) RepairPc Unit
  | .loadCount => .load .writeCount fun idx => .inl (.loadSeq idx)
  | .loadSeq idx => .load (.seq (cellOf idx.toNat)) fun s =>
      if s &&& 1 ≠ 0 then .inl (.reset idx) else .inr ()
  | .reset idx => .store (.seq (cellOf idx.toNat)) 0 (.inr ())

/-! ### The readers

All three verbs read a cell in the same way: sequence, index, words, sequence again. They
differ in what they do when the cell was never written, is being written, or changed under
the copy: `Load` starts over from the cursor, `LoadBounded` does so a bounded number of
times, `Snapshot` ends its walk. -/

/-- Program counter inside one iteration, shared by the three read verbs. `c` is
the captured cursor, `s1` the first sequence, `idx` the write index. -/
inductive ReadPc
  /-- `write_count.load` (R0). -/
  | capture
  /-- First `cell.seq.load` (R1). -/
  | first (c : UInt64)
  /-- `cell.index.load`. -/
  | index (c s1 : UInt64)
  /-- Head of the word loop; past the last word, the second `cell.seq.load`. -/
  | copy (c s1 idx : UInt64) (staged : List UInt64)
  deriving DecidableEq, Repr

/-- `Load(out)`: returns whether a value was found, and `out` afterwards. -/
def load (out : Payload size) : Code (Val N size) ReadPc (Bool × Payload size)
  | .capture => .load .writeCount fun c =>
      if c = 0 then .inr (false, out)
      else .inl (.first c)
  | .first c => .load (.seq (cellOf (c - 1).toNat)) fun s1 =>
      if s1 = 0 then .inr (false, out)
      else if s1 &&& 1 ≠ 0 then .inl .capture
      else .inl (.index c s1)
  | .index c s1 => .load (.index (cellOf (c - 1).toNat)) fun idx =>
      .inl (.copy c s1 idx [])
  | .copy c s1 idx staged =>
      if h : staged.length < kWords size then
        .load (.words (cellOf (c - 1).toNat) ⟨staged.length, h⟩) fun v =>
          .inl (.copy c s1 idx (staged ++ [v]))
      else
        .load (.seq (cellOf (c - 1).toNat)) fun s2 =>
          if s2 ≠ s1 then .inl .capture
          else if idx ≠ c - 1 then .inl .capture
          else .inr (true, ofWords staged)

/-- `LoadResult`. `kStalled` is the answer of `LoadBounded` alone: its retries are used up. -/
inductive LoadResult
  | kValue
  | kEmpty
  | kStalled
  deriving DecidableEq, Repr

/-- Locals of `LoadBounded`. The attempts are counted in the type of the source, which
wraps. -/
structure BoundedFrame where
  attempt : UInt32
  pc : ReadPc
  deriving DecidableEq, Repr

/-- The loop step `++attempt` and its test: go round again, or give up. -/
def boundedRetry (out : Payload size) (maxRetries attempt : UInt32) :
    BoundedFrame ⊕ (LoadResult × Payload size) :=
  if attempt + 1 ≤ maxRetries then .inl ⟨attempt + 1, .capture⟩ else .inr (.kStalled, out)

/-- `LoadBounded(out, max_retries)`. -/
def loadBounded (out : Payload size) (maxRetries : UInt32) :
    Code (Val N size) BoundedFrame (LoadResult × Payload size)
  | ⟨attempt, .capture⟩ => .load .writeCount fun c =>
      if c = 0 then .inr (.kEmpty, out)
      else .inl ⟨attempt, .first c⟩
  | ⟨attempt, .first c⟩ => .load (.seq (cellOf (c - 1).toNat)) fun s1 =>
      if s1 = 0 then .inr (.kEmpty, out)
      else if s1 &&& 1 ≠ 0 then boundedRetry out maxRetries attempt
      else .inl ⟨attempt, .index c s1⟩
  | ⟨attempt, .index c s1⟩ => .load (.index (cellOf (c - 1).toNat)) fun idx =>
      .inl ⟨attempt, .copy c s1 idx []⟩
  | ⟨attempt, .copy c s1 idx staged⟩ =>
      if h : staged.length < kWords size then
        .load (.words (cellOf (c - 1).toNat) ⟨staged.length, h⟩) fun v =>
          .inl ⟨attempt, .copy c s1 idx (staged ++ [v])⟩
      else
        .load (.seq (cellOf (c - 1).toNat)) fun s2 =>
          if s2 = s1 ∧ idx = c - 1 then .inr (.kValue, ofWords staged)
          else boundedRetry out maxRetries attempt

/-- Locals of `Snapshot`; `out` is the caller's array. The loop counter `i` is
`taken`: an iteration that does not take an entry leaves the loop. -/
structure SnapshotFrame (size : Nat) where
  taken : Nat
  out : Nat → Payload size
  pc : ReadPc

/-- `limit`: `k` cut to the cursor and to the depth. A position older than a lap has been
overwritten, so there is nothing to walk to. -/
def snapshotLimit (N k : Nat) (c : UInt64) : Nat :=
  let limit := if c.toNat < k then c.toNat else k
  if N < limit then N else limit

/-- Head of `Snapshot`'s walk. The walk is over when the limit is reached; the cells in
front of it decide the rest. -/
def snapshotNext (N k : Nat) (c : UInt64) (taken : Nat) (out : Nat → Payload size) :
    SnapshotFrame size ⊕ (Nat × (Nat → Payload size)) :=
  if taken < snapshotLimit N k c then .inl ⟨taken, out, .first c⟩ else .inr (taken, out)

/-- `want`: the position `Snapshot` reads in iteration `i`. -/
def snapshotWant (c : UInt64) (i : Nat) : UInt64 := c - 1 - .ofNat i

/-- `Snapshot(out, k)`: returns the number of entries taken, and `out`
afterwards. -/
def snapshot (k : Nat) :
    Code (Val N size) (SnapshotFrame size) (Nat × (Nat → Payload size))
  | ⟨taken, out, .capture⟩ => .load .writeCount fun c => snapshotNext N k c taken out
  | ⟨taken, out, .first c⟩ => .load (.seq (cellOf (snapshotWant c taken).toNat)) fun s1 =>
      if s1 = 0 ∨ s1 &&& 1 ≠ 0 then .inr (taken, out)
      else .inl ⟨taken, out, .index c s1⟩
  | ⟨taken, out, .index c s1⟩ =>
      .load (.index (cellOf (snapshotWant c taken).toNat)) fun idx =>
        .inl ⟨taken, out, .copy c s1 idx []⟩
  | ⟨taken, out, .copy c s1 idx staged⟩ =>
      if h : staged.length < kWords size then
        .load (.words (cellOf (snapshotWant c taken).toNat) ⟨staged.length, h⟩) fun v =>
          .inl ⟨taken, out, .copy c s1 idx (staged ++ [v])⟩
      else
        .load (.seq (cellOf (snapshotWant c taken).toNat)) fun s2 =>
          if s2 ≠ s1 then .inr (taken, out)
          else if idx ≠ snapshotWant c taken then .inr (taken, out)
          else snapshotNext N k c (taken + 1) (Function.update out taken (ofWords staged))

end SeqlockRing

end XmBase.Concurrency
