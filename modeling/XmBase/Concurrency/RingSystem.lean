import XmBase.Concurrency.SeqlockRing
import XmBase.Lib.Run
import Mathlib.Tactic.SplitIfs
/-!
# XmBase.Concurrency.RingSystem

The ring **in use**: one writer at a time, any number of readers, steps
interleaved access by access.

The writer may be killed between any two of its accesses. What follows a kill
is what the source's contract asks for: a successor, now the sole writer, runs
`RepairAfterWriterCrash` and goes on storing. A run without the label `kill` is
a run of the in-process setting, where threads do not die alone.

`History` and `CallLog` are history variables. No step reads them; they name
what the results talk about (the completed stores in order, the cursors a call
captured, how often a cell was reset).
-/

namespace XmBase.Concurrency.SeqlockRing

open Atomic (Access Code)

variable {N size : Nat} [NeZero N] {ι : Type} [DecidableEq ι]

/-- The writing side. The idle writer and the dead one differ in what may come next: a call
of `Store`, or a repair. -/
inductive Writer (size : Nat)
  | idle
  | storing (value : Payload size) (pc : StorePc)
  /-- Killed inside a call; nobody has reclaimed the ring yet. -/
  | dead
  | repairing (pc : RepairPc)

/-- What happened to the ring so far, as an observer would write it down. The results are
stated in these terms; the memory only has words. -/
structure History (N size : Nat) where
  /-- Arguments of the stores that ran to completion; the list index is the
  write position. -/
  published : List (Payload size)
  /-- Calls of `Store`. -/
  calls : Nat
  /-- Stores whose odd sequence store was executed. -/
  begun : Nat
  /-- Per cell, how often `RepairAfterWriterCrash` reset its sequence. -/
  resets : Fin N → Nat
  /-- The cell was reset and no store has begun in it since. -/
  retracted : Fin N → Bool

/-- What `Store(value)` adds to the history by the access at `pc`. -/
def History.afterStore (value : Payload size) (h : History N size) : StorePc → History N size
  | .storeOdd idx _ =>
      { h with begun := h.begun + 1, retracted := Function.update h.retracted (cellOf idx.toNat) false }
  | .storeCount _ => { h with published := h.published ++ [value] }
  | _ => h

/-- What `RepairAfterWriterCrash` adds to the history by the access at `pc`. -/
def History.afterRepair (h : History N size) : RepairPc → History N size
  | .reset idx =>
      { h with
        resets := Function.update h.resets (cellOf idx.toNat) (h.resets (cellOf idx.toNat) + 1)
        retracted := Function.update h.retracted (cellOf idx.toNat) true }
  | _ => h

/-- What one read call has done so far. A call may go round its loop any number of times,
and each time it captures the cursor anew. -/
structure CallLog where
  /-- Stores completed when the call began. -/
  start : Nat
  /-- The cursors its iterations captured, newest first. -/
  captures : List UInt64
  /-- `resets` of the cell being read, at the first load of its sequence. -/
  epoch : Nat

/-- A read call with its arguments. `out` is what the caller's object or array holds before
the call. -/
inductive ReadCall (size : Nat)
  | load (out : Payload size)
  | loadBounded (out : Payload size) (maxRetries : UInt32)
  | snapshot (out : Nat → Payload size) (k : Nat)

/-- A reading thread: between calls, inside one, or just returned from one. The
call's arguments are kept, so that results can compare `out` with what it was. -/
inductive Reader (size : Nat)
  | idle
  | load (out : Payload size) (pc : ReadPc) (log : CallLog)
  | loadBounded (out : Payload size) (maxRetries : UInt32) (frame : BoundedFrame) (log : CallLog)
  | snapshot (out : Nat → Payload size) (k : Nat) (frame : SnapshotFrame size) (log : CallLog)
  | loaded (out : Payload size) (log : CallLog) (found : Bool) (out' : Payload size)
  | loadedBounded (out : Payload size) (log : CallLog) (result : LoadResult) (out' : Payload size)
  /-- `ended` is `begun` when the walk ended. -/
  | snapped (out : Nat → Payload size) (k : Nat) (log : CallLog) (ended : Nat)
      (n : Nat) (out' : Nat → Payload size)

/-- The whole system: the words, the two sides and the history. Readers are named by a type
of any size, so their number is not bounded. -/
structure World (N size : Nat) (ι : Type) where
  mem : Mem N size
  writer : Writer size
  readers : ι → Reader size
  hist : History N size

/-- The system right after construction. -/
def World.init (N size : Nat) (ι : Type) : World N size ι where
  mem := zeroed N size
  writer := .idle
  readers := fun _ => .idle
  hist := ⟨[], 0, 0, fun _ => 0, fun _ => false⟩

/-- Who moves, and how. Between two labels anything else may happen, so a list of labels is
an interleaving at single accesses. -/
inductive Label (size : Nat) (ι : Type)
  /-- The idle writer calls `Store(value)`. -/
  | callStore (value : Payload size)
  /-- The writer performs its next atomic access. -/
  | write
  /-- The writer is killed at the current step boundary. -/
  | kill
  /-- A successor calls `RepairAfterWriterCrash()`. -/
  | callRepair
  /-- Reader `r` makes a call. -/
  | call (r : ι) (c : ReadCall size)
  /-- Reader `r` performs its next atomic access. -/
  | read (r : ι)

/-- The reader is inside a call. -/
def Reader.inCall : Reader size → Bool
  | .load .. | .loadBounded .. | .snapshot .. => true
  | _ => false

/-- A call at its first access, made when `start` stores were complete. -/
def Reader.atEntry (start : Nat) : ReadCall size → Reader size
  | .load out => .load out .capture ⟨start, [], 0⟩
  | .loadBounded out maxRetries => .loadBounded out maxRetries ⟨0, .capture⟩ ⟨start, [], 0⟩
  | .snapshot out k => .snapshot out k ⟨0, out, .capture⟩ ⟨start, [], 0⟩

/-- The cell a call reads that captured `c` and has taken `i` entries; the
read-latest verbs are the case `i = 0`. -/
def readCell (c : UInt64) (i : Nat) : Fin N := cellOf (snapshotWant c i).toNat

/-- Log the access about to be made at `pc` by a call that has taken `i` entries
(none, for the read-latest verbs). -/
def CallLog.note (log : CallLog) (m : Mem N size) (h : History N size) (i : Nat) :
    ReadPc → CallLog
  | .capture => { log with captures := m .writeCount :: log.captures }
  | .first c => { log with epoch := h.resets (readCell c i) }
  | _ => log

/-- The next access of a reader inside a call. -/
def Reader.access (m : Mem N size) (h : History N size) :
    Reader size → Option (Access (Val N size) (Reader size))
  | .load out pc log => some ((SeqlockRing.load out pc).map fun
      | .inl pc' => .load out pc' (log.note m h 0 pc)
      | .inr (found, out') => .loaded out (log.note m h 0 pc) found out')
  | .loadBounded out maxRetries frame log =>
      some ((SeqlockRing.loadBounded out maxRetries frame).map fun
        | .inl frame' => .loadBounded out maxRetries frame' (log.note m h 0 frame.pc)
        | .inr (result, out') => .loadedBounded out (log.note m h 0 frame.pc) result out')
  | .snapshot out k frame log => some ((SeqlockRing.snapshot k frame).map fun
      | .inl frame' => .snapshot out k frame' (log.note m h frame.taken frame.pc)
      | .inr (n, out') => .snapped out k (log.note m h frame.taken frame.pc) h.begun n out')
  | _ => none

/-- One step of the system. A label that does not fit the state is not enabled, so a
schedule that asks the impossible is no run. -/
def World.step (w : World N size ι) : Label size ι → Option (World N size ι)
  | .callStore value =>
      match w.writer with
      | .idle => some { w with
          writer := .storing value .loadCount
          hist := { w.hist with calls := w.hist.calls + 1 } }
      | _ => none
  | .write =>
      match w.writer with
      | .storing value pc => some { w with
          mem := ((store value pc).exec w.mem).1
          writer := match ((store value pc).exec w.mem).2 with
            | .inl pc' => .storing value pc'
            | .inr () => .idle
          hist := w.hist.afterStore value pc }
      | .repairing pc => some { w with
          mem := ((repairAfterWriterCrash pc).exec w.mem).1
          writer := match ((repairAfterWriterCrash pc).exec w.mem).2 with
            | .inl pc' => .repairing pc'
            | .inr () => .idle
          hist := w.hist.afterRepair pc }
      | _ => none
  | .kill =>
      match w.writer with
      | .storing .. | .repairing .. => some { w with writer := .dead }
      | _ => none
  | .callRepair =>
      match w.writer with
      | .dead => some { w with writer := .repairing .loadCount }
      | _ => none
  | .call r c =>
      if (w.readers r).inCall then none
      else some { w with
        readers := Function.update w.readers r (.atEntry w.hist.published.length c) }
  | .read r =>
      ((w.readers r).access w.mem w.hist).map fun a => { w with
        mem := (a.exec w.mem).1
        readers := Function.update w.readers r (a.exec w.mem).2 }

/-- Run a schedule from the freshly constructed ring. -/
def World.run (ls : List (Label size ι)) : Option (World N size ι) :=
  Run.exec World.step (World.init N size ι) ls

/-! Pieces of schedules. -/

/-- `Store(value)` is called and gets `n` accesses. -/
def stores (value : Payload size) (n : Nat) : List (Label size ι) :=
  .callStore value :: List.replicate n .write

/-- The writer is killed, and its successor's repair gets `n` accesses. -/
def killedAndRepaired (n : Nat) : List (Label size ι) :=
  .kill :: .callRepair :: List.replicate n .write

/-- Reader `r` makes a call and gets `n` accesses. -/
def calls (r : ι) (c : ReadCall size) (n : Nat) : List (Label size ι) :=
  .call r c :: List.replicate n (.read r)

/-- Reader `r` gets `n` more accesses. -/
def reads (r : ι) (n : Nat) : List (Label size ι) := List.replicate n (.read r)

/-! ### What a step can do

The two halves of the state move separately: a step of the writing side leaves
the readers alone, and a step of a reader leaves memory, history and writer
alone. Everything proved about runs is read off these two inversions. -/

/-- Every move of the writing side, on memory, history and writer. One constructor for each
access of `Store` and of the repair, and one for a kill at each of these places; the
invariants of the ring are proved by cases on it. -/
inductive WriterMove : Mem N size → History N size → Writer size →
    Mem N size → History N size → Writer size → Prop
  | callStore (m h v) :
      WriterMove m h .idle m { h with calls := h.calls + 1 } (.storing v .loadCount)
  | loadCount (m h v) :
      WriterMove m h (.storing v .loadCount) m h (.storing v (.loadSeq (m .writeCount)))
  | loadSeq (m h v idx) :
      WriterMove m h (.storing v (.loadSeq idx)) m h
        (.storing v (.storeOdd idx (m (.seq (cellOf idx.toNat)))))
  | storeOdd (m h v idx s) :
      WriterMove m h (.storing v (.storeOdd idx s))
        (Function.update m (.seq (cellOf idx.toNat)) (s + 1))
        (h.afterStore v (.storeOdd idx s)) (.storing v (.storeIndex idx s))
  | storeIndex (m h v idx s) :
      WriterMove m h (.storing v (.storeIndex idx s))
        (Function.update m (.index (cellOf idx.toNat)) idx) h (.storing v (.copy idx s 0))
  | storeWord (m h v idx s i) (hi : i < kWords size) :
      WriterMove m h (.storing v (.copy idx s i))
        (Function.update m (.words (cellOf idx.toNat) ⟨i, hi⟩) (Bytes.toWords v i)) h
        (.storing v (.copy idx s (i + 1)))
  | storeEven (m h v idx s i) (hi : ¬ i < kWords size) :
      WriterMove m h (.storing v (.copy idx s i))
        (Function.update m (.seq (cellOf idx.toNat)) (s + 2)) h (.storing v (.storeCount idx))
  | storeCount (m h v idx) :
      WriterMove m h (.storing v (.storeCount idx))
        (Function.update m .writeCount (idx + 1)) (h.afterStore v (.storeCount idx)) .idle
  | killStore (m h v pc) : WriterMove m h (.storing v pc) m h .dead
  | killRepair (m h pc) : WriterMove m h (.repairing pc) m h .dead
  | callRepair (m h) : WriterMove m h .dead m h (.repairing .loadCount)
  | repairCount (m h) :
      WriterMove m h (.repairing .loadCount) m h (.repairing (.loadSeq (m .writeCount)))
  | repairOdd (m h idx) (hodd : m (.seq (cellOf idx.toNat)) &&& 1 ≠ 0) :
      WriterMove m h (.repairing (.loadSeq idx)) m h (.repairing (.reset idx))
  | repairEven (m h idx) (heven : ¬ m (.seq (cellOf idx.toNat)) &&& 1 ≠ 0) :
      WriterMove m h (.repairing (.loadSeq idx)) m h .idle
  | reset (m h idx) :
      WriterMove m h (.repairing (.reset idx))
        (Function.update m (.seq (cellOf idx.toNat)) 0) (h.afterRepair (.reset idx)) .idle

/-- The labels of the writing side. -/
def Label.isWriting : Label size ι → Bool
  | .callStore _ | .write | .kill | .callRepair => true
  | .call .. | .read _ => false

theorem World.step_writing {w w' : World N size ι} {l : Label size ι}
    (h : w.step l = some w') (hl : l.isWriting = true) :
    WriterMove w.mem w.hist w.writer w'.mem w'.hist w'.writer ∧ w'.readers = w.readers := by
  obtain ⟨m, wr, rd, hist⟩ := w
  cases l with
  | callStore v =>
      cases wr with
      | idle =>
          obtain rfl := Option.some.inj h
          exact ⟨.callStore m hist v, rfl⟩
      | _ => simp [World.step] at h
  | write =>
      cases wr with
      | storing v pc =>
          obtain rfl := Option.some.inj h
          cases pc with
          | loadCount => exact ⟨.loadCount m hist v, rfl⟩
          | loadSeq idx => exact ⟨.loadSeq m hist v idx, rfl⟩
          | storeOdd idx s => exact ⟨.storeOdd m hist v idx s, rfl⟩
          | storeIndex idx s => exact ⟨.storeIndex m hist v idx s, rfl⟩
          | copy idx s i =>
              refine ⟨?_, rfl⟩
              -- a word of the copy, or the store that makes the sequence even again
              by_cases hi : i < kWords size
              · simp only [store, dif_pos hi]
                exact .storeWord m hist v idx s i hi
              · simp only [store, dif_neg hi]
                exact .storeEven m hist v idx s i hi
          | storeCount idx => exact ⟨.storeCount m hist v idx, rfl⟩
      | repairing pc =>
          obtain rfl := Option.some.inj h
          cases pc with
          | loadCount => exact ⟨.repairCount m hist, rfl⟩
          | loadSeq idx =>
              refine ⟨?_, rfl⟩
              -- an odd sequence is a store that was cut off
              by_cases hodd : m (.seq (cellOf idx.toNat)) &&& 1 ≠ 0
              · simp only [repairAfterWriterCrash, Access.exec_load, if_pos hodd]
                exact .repairOdd m hist idx hodd
              · simp only [repairAfterWriterCrash, Access.exec_load, if_neg hodd]
                exact .repairEven m hist idx hodd
          | reset idx => exact ⟨.reset m hist idx, rfl⟩
      | _ => simp [World.step] at h
  | kill =>
      cases wr with
      | storing v pc =>
          obtain rfl := Option.some.inj h
          exact ⟨.killStore m hist v pc, rfl⟩
      | repairing pc =>
          obtain rfl := Option.some.inj h
          exact ⟨.killRepair m hist pc, rfl⟩
      | _ => simp [World.step] at h
  | callRepair =>
      cases wr with
      | dead =>
          obtain rfl := Option.some.inj h
          exact ⟨.callRepair m hist, rfl⟩
      | _ => simp [World.step] at h
  | call r c => simp [Label.isWriting] at hl
  | read r => simp [Label.isWriting] at hl

/-! ### What a reader's access sees

The three read verbs inline the same cell read and differ only in what they
make of its outcome. `observe` is the cell read, and `loadOn`, `loadBoundedOn`
and `snapshotOn` are the three reactions. -/

/-- What one access of a reader finds. The three verbs look at nothing else, so what an
outcome proves about the ring is proved once for all of them. -/
inductive Outcome
  /-- The cursor was captured. -/
  | captured (c : UInt64)
  /-- The first sequence is zero. -/
  | zero
  /-- The first sequence is odd. -/
  | odd
  /-- The read goes on. -/
  | progress (pc : ReadPc)
  /-- The second sequence differs, or the index is not the wanted one. -/
  | invalid
  /-- The copy is validated. -/
  | valid (c : UInt64) (staged : List UInt64)

/-- The access at `pc` of a call that has taken `i` entries. -/
def observe (m : Mem N size) (i : Nat) : ReadPc → Outcome
  | .capture => .captured (m .writeCount)
  | .first c =>
      if m (.seq (readCell c i)) = 0 then .zero
      else if m (.seq (readCell c i)) &&& 1 ≠ 0 then .odd
      else .progress (.index c (m (.seq (readCell c i))))
  | .index c s1 => .progress (.copy c s1 (m (.index (readCell c i))) [])
  | .copy c s1 idx staged =>
      if h : staged.length < kWords size then
        .progress (.copy c s1 idx (staged ++ [m (.words (readCell c i) ⟨staged.length, h⟩)]))
      else if m (.seq (readCell c i)) = s1 ∧ idx = snapshotWant c i then .valid c staged
      else .invalid

/-- `Load`'s reaction. -/
def loadOn (out : Payload size) : Outcome → ReadPc ⊕ (Bool × Payload size)
  | .captured c => if c = 0 then .inr (false, out) else .inl (.first c)
  | .zero => .inr (false, out)
  | .odd | .invalid => .inl .capture
  | .progress pc => .inl pc
  | .valid _ staged => .inr (true, Bytes.ofWords staged)

/-- `LoadBounded`'s reaction. -/
def loadBoundedOn (out : Payload size) (maxRetries attempt : UInt32) :
    Outcome → BoundedFrame ⊕ (LoadResult × Payload size)
  | .captured c => if c = 0 then .inr (.kEmpty, out) else .inl ⟨attempt, .first c⟩
  | .zero => .inr (.kEmpty, out)
  | .odd | .invalid => boundedRetry out maxRetries attempt
  | .progress pc => .inl ⟨attempt, pc⟩
  | .valid _ staged => .inr (.kValue, Bytes.ofWords staged)

/-- `Snapshot`'s reaction. -/
def snapshotOn (N k taken : Nat) (out : Nat → Payload size) :
    Outcome → SnapshotFrame size ⊕ (Nat × (Nat → Payload size))
  | .captured c => snapshotNext N k c taken out
  | .zero | .odd | .invalid => .inr (taken, out)
  | .progress pc => .inl ⟨taken, out, pc⟩
  | .valid c staged =>
      snapshotNext N k c (taken + 1) (Function.update out taken (Bytes.ofWords staged))

theorem snapshotWant_zero (c : UInt64) : snapshotWant c 0 = c - 1 := by
  simp [snapshotWant]

theorem load_exec (m : Mem N size) (out : Payload size) (pc : ReadPc) :
    (load out pc).exec m = (m, loadOn out (observe m 0 pc)) := by
  cases pc with
  | capture => rfl
  | first c =>
      simp only [load, observe, readCell, snapshotWant_zero, Access.exec_load]
      split_ifs <;> rfl
  | index c s1 => simp only [load, observe, readCell, snapshotWant_zero, Access.exec_load, loadOn]
  | copy c s1 idx staged =>
      simp only [load, observe, readCell, snapshotWant_zero]
      split_ifs <;> simp_all [loadOn]

theorem loadBounded_exec (m : Mem N size) (out : Payload size) (maxRetries attempt : UInt32)
    (pc : ReadPc) :
    (loadBounded out maxRetries ⟨attempt, pc⟩).exec m =
      (m, loadBoundedOn out maxRetries attempt (observe m 0 pc)) := by
  cases pc with
  | capture => rfl
  | first c =>
      simp only [loadBounded, observe, readCell, snapshotWant_zero, Access.exec_load]
      split_ifs <;> rfl
  | index c s1 => simp only [loadBounded, observe, readCell, snapshotWant_zero, Access.exec_load, loadBoundedOn]
  | copy c s1 idx staged =>
      simp only [loadBounded, observe, readCell, snapshotWant_zero]
      split_ifs <;> simp_all [loadBoundedOn]

theorem snapshot_exec (m : Mem N size) (k taken : Nat) (out : Nat → Payload size) (pc : ReadPc) :
    (snapshot k ⟨taken, out, pc⟩).exec m =
      (m, snapshotOn N k taken out (observe m taken pc)) := by
  cases pc with
  | capture => rfl
  | first c =>
      simp only [snapshot, observe, readCell, Access.exec_load]
      split_ifs <;> simp_all [snapshotOn]
  | index c s1 => rfl
  | copy c s1 idx staged =>
      simp only [snapshot, observe, readCell]
      split_ifs <;> simp_all [snapshotOn]

/-- The reader after its next access, in terms of what the access found. It is `World.step`
of a reading label, with the memory looked at once. -/
def Reader.next (m : Mem N size) (h : History N size) : Reader size → Option (Reader size)
  | .load out pc log => some <|
      match loadOn out (observe m 0 pc) with
      | .inl pc' => .load out pc' (log.note m h 0 pc)
      | .inr (found, out') => .loaded out (log.note m h 0 pc) found out'
  | .loadBounded out maxRetries ⟨attempt, pc⟩ log => some <|
      match loadBoundedOn out maxRetries attempt (observe m 0 pc) with
      | .inl frame' => .loadBounded out maxRetries frame' (log.note m h 0 pc)
      | .inr (result, out') => .loadedBounded out (log.note m h 0 pc) result out'
  | .snapshot out k ⟨taken, buf, pc⟩ log => some <|
      match snapshotOn N k taken buf (observe m taken pc) with
      | .inl frame' => .snapshot out k frame' (log.note m h taken pc)
      | .inr (n, out') => .snapped out k (log.note m h taken pc) h.begun n out'
  | _ => none

/-- Readers only load. -/
theorem Reader.access_exec {m : Mem N size} {h : History N size} {rd : Reader size}
    {a : Access (Val N size) (Reader size)} (ha : rd.access m h = some a) :
    (a.exec m).1 = m ∧ rd.next m h = some (a.exec m).2 := by
  cases rd with
  | load out pc log =>
      obtain rfl := Option.some.inj ha
      rw [Access.exec_map, load_exec]
      exact ⟨rfl, rfl⟩
  | loadBounded out maxRetries frame log =>
      obtain rfl := Option.some.inj ha
      obtain ⟨attempt, pc⟩ := frame
      rw [Access.exec_map, loadBounded_exec]
      exact ⟨rfl, rfl⟩
  | snapshot out k frame log =>
      obtain rfl := Option.some.inj ha
      obtain ⟨taken, buf, pc⟩ := frame
      rw [Access.exec_map, snapshot_exec]
      exact ⟨rfl, rfl⟩
  | _ => simp [Reader.access] at ha

/-- A step of reader `r` changes that reader only: it enters a call, or it makes
the access of the call it is in. -/
theorem World.step_reading {w w' : World N size ι} {l : Label size ι}
    (h : w.step l = some w') (hl : l.isWriting = false) :
    w'.mem = w.mem ∧ w'.hist = w.hist ∧ w'.writer = w.writer ∧
    ∃ r rd, w'.readers = Function.update w.readers r rd ∧
      ((∃ c, l = .call r c ∧ rd = .atEntry w.hist.published.length c) ∨
       (l = .read r ∧ (w.readers r).next w.mem w.hist = some rd)) := by
  cases l with
  | call r c =>
      simp only [World.step] at h
      split_ifs at h
      obtain rfl := Option.some.inj h
      exact ⟨rfl, rfl, rfl, r, _, rfl, Or.inl ⟨c, rfl, rfl⟩⟩
  | read r =>
      simp only [World.step, Option.map_eq_some_iff] at h
      obtain ⟨a, ha, rfl⟩ := h
      obtain ⟨hmem, hnext⟩ := Reader.access_exec ha
      exact ⟨hmem, rfl, rfl, r, _, rfl, Or.inr ⟨rfl, hnext⟩⟩
  | callStore v => simp [Label.isWriting] at hl
  | write => simp [Label.isWriting] at hl
  | kill => simp [Label.isWriting] at hl
  | callRepair => simp [Label.isWriting] at hl

end XmBase.Concurrency.SeqlockRing
