import XmBase.Concurrency.SpscQueue
import XmBase.Lib.DataRace
import XmBase.Lib.Laps
import XmBase.Lib.Word
/-!
# XmBase.Concurrency.WeakQueue

`SpscQueue<T>` (`include/xmbase/concurrency/spsc_queue.hpp`) with the memory orders of the
source: the accesses of `XmBase.Concurrency.SpscQueue` over a memory where a load may return
an old write. The cells are no atomics, so their accesses may also race
(`XmBase.Lib.DataRace`).

* (Q1), (Q2): the consumer's head is a release store, its load by the producer an acquire
  load. The head number `t` carries the marks of the copies out of the positions below `t`.
* (Q3), (Q4): the producer's tail is a release store, its load by the consumer an acquire
  load. The tail number `t` carries the cells of the positions below `t`.

What a thread loads of the other's index may be arbitrarily old, as long as it is not older
than what it knows already. Each index is known exactly to the thread that stores it.

This module has the system and its invariant; `XmBase.Concurrency.WeakFifo` shows that every
step keeps it, and what follows for the callers.

Between their calls the two threads may synchronize by means that are not the queue's. Of
the threads that may call `Size()` only the consumer is here; for the others see
`XmBase.Concurrency.DepthGauge`.
-/

namespace XmBase.Concurrency.WeakQueue

open WeakMemory (ThreadView Order Message History Place Marked UpToDate performIn)
open SpscQueue (Elem Loc Val PushPc PopPc FullPc SizePc Operand tryPush tryPop full size
  constructed effectiveDepth)
open Laps (laps)

variable {α : Type} {parts : Nat}

/-! ### Orders

The orders the source writes at each access. A cell is written and read with plain accesses;
the order given at `.copy` is that of the index store that ends the call, which is the only
atomic access there. -/

/-- The cells are no atomics. -/
def plain : Loc parts → Bool
  | .cell .. => true
  | _ => false

/-- The orders in `TryPush`. -/
def pushOrder : PushPc → Order
  | .loadCapacity => .relaxed
  | .loadTail _ => .relaxed
  | .loadHead .. => .acquiring
  | .copy .. => .releasing

/-- The orders in `TryPop`. -/
def popOrder : PopPc α parts → Order
  | .loadCapacity _ => .relaxed
  | .loadHead .. => .relaxed
  | .loadTail .. => .acquiring
  | .copy .. => .releasing

/-- The orders in `Full`. -/
def fullOrder (pc : FullPc) : Order :=
  match pc.next with
  | .head => .acquiring
  | .tail | .capacity => .relaxed

/-- The orders in `Size`. -/
def sizeOrder : SizePc → Order
  | .loadHead => .relaxed
  | .loadTail _ => .relaxed

/-! ### The system

The producer and the consumer, every access a step. The memory keeps a mark for each read of
a cell (`XmBase.Lib.DataRace`), and a plain access that did not happen behind all earlier
ones to the same cell, as far as they conflict, sets `raced`. -/

/-- What one `TryPush` has done: the head its thread knew when it made the call, the head it
loaded, and whether `Full()` had returned false since the call before. -/
structure PushLog where
  floor : Nat
  head : Nat
  room : Bool
  deriving DecidableEq, Repr

/-- What one `TryPop` or `Size` has done: the tail its thread knew when it made the call, and
the tail it loaded. -/
structure PopLog where
  floor : Nat
  tail : Nat
  deriving DecidableEq, Repr

/-- Log the access of a `TryPush` that returns the write number `t`. -/
def PushLog.note (log : PushLog) (t : Nat) : PushPc → PushLog
  | .loadHead .. => { log with head := t }
  | _ => log

def PopLog.note (log : PopLog) (t : Nat) : PopPc α parts → PopLog
  | .loadTail .. => { log with tail := t }
  | _ => log

def PopLog.noteSize (log : PopLog) (t : Nat) : SizePc → PopLog
  | .loadTail _ => { log with tail := t }
  | .loadHead => log

/-- The producer thread: between calls, inside one, or just returned from one. -/
inductive Producer (α : Type) (parts : Nat)
  | idle
  | pushing (value : Elem α parts) (pc : PushPc) (log : PushLog)
  | checking (pc : FullPc)
  | pushed (value : Elem α parts) (log : PushLog) (ok : Bool)
  | checked (isFull : Bool)

/-- The consumer thread. -/
inductive Consumer (α : Type) (parts : Nat)
  | idle
  | popping (pc : PopPc α parts) (log : PopLog)
  | sizing (pc : SizePc) (log : PopLog)
  | popped (log : PopLog) (ok : Bool) (out : Elem α parts)
  | sized (log : PopLog) (n : UInt64)

def Producer.inCall : Producer α parts → Bool
  | .pushing .. | .checking _ => true
  | _ => false

def Consumer.inCall : Consumer α parts → Bool
  | .popping .. | .sizing .. => true
  | _ => false

/-- The whole system. `accepted` and `popped` are the values whose `TryPush` stored the tail
and whose `TryPop` stored the head, `room` says that `Full()` has returned false since the
last `TryPush`, and `raced` that two accesses to a cell did. -/
structure World (α : Type) (parts : Nat) where
  mem : History (Marked (Val α parts))
  producer : Producer α parts
  producerView : ThreadView (Place (Loc parts))
  consumer : Consumer α parts
  consumerView : ThreadView (Place (Loc parts))
  accepted : List (Elem α parts)
  popped : List (Elem α parts)
  room : Bool
  raced : Bool

/-- The system right after construction, which both threads have seen. -/
def World.init (depth : UInt32) (junk : Nat → Elem α parts) : World α parts where
  mem := .unread (constructed depth junk)
  producer := .idle
  producerView := .init
  consumer := .idle
  consumerView := .init
  accepted := []
  popped := []
  room := false
  raced := false

/-- Who moves, and how. An atomic load returns the write number `t` of its location. -/
inductive Label (α : Type) (parts : Nat)
  | callPush (value : Elem α parts)
  /-- The producer calls `Full()`, whose loads happen in the given order. -/
  | callFull (next : Operand) (rest : List Operand)
  | produce (t : Nat)
  | callPop (out : Elem α parts)
  | callSize
  | consume (t : Nat)
  /-- The consumer, between two calls, synchronizes with the producer. -/
  | tellConsumer
  /-- The producer, between two calls, synchronizes with the consumer. -/
  | tellProducer

/-- The producer after an access of `TryPush`. -/
def Producer.afterPush (value : Elem α parts) (log : PushLog) : PushPc ⊕ Bool → Producer α parts
  | .inl pc => .pushing value pc log
  | .inr ok => .pushed value log ok

/-- The producer after an access of `Full`. -/
def Producer.afterFull : FullPc ⊕ Bool → Producer α parts
  | .inl pc => .checking pc
  | .inr isFull => .checked isFull

/-- The consumer after an access of `TryPop`. -/
def Consumer.afterPop (log : PopLog) : PopPc α parts ⊕ (Bool × Elem α parts) → Consumer α parts
  | .inl pc => .popping pc log
  | .inr (ok, out) => .popped log ok out

/-- The consumer after an access of `Size`. -/
def Consumer.afterSize (log : PopLog) : SizePc ⊕ UInt64 → Consumer α parts
  | .inl pc => .sizing pc log
  | .inr n => .sized log n

/-- The values accepted so far, once a `TryPush` goes on as told. -/
def accept (value : Elem α parts) (accepted : List (Elem α parts)) :
    PushPc ⊕ Bool → List (Elem α parts)
  | .inr true => accepted ++ [value]
  | _ => accepted

/-- The values popped so far, once a `TryPop` goes on as told. -/
def take (popped : List (Elem α parts)) :
    PopPc α parts ⊕ (Bool × Elem α parts) → List (Elem α parts)
  | .inr (true, out) => popped ++ [out]
  | _ => popped

theorem accept_ite {value : Elem α parts} {accepted : List (Elem α parts)} {P : Prop} [Decidable P]
    {pc : PushPc} :
    accept value accepted (if P then .inr false else .inl pc) = accepted := by
  split <;> rfl

theorem take_ite {popped : List (Elem α parts)} {P : Prop} {_ : Decidable P} {out : Elem α parts}
    {pc : PopPc α parts} :
    take popped (if P then .inr (false, out) else .inl pc) = popped := by
  split <;> rfl

/-- The consumer takes a view in. -/
def World.hear (w : World α parts) (view : WeakMemory.View (Place (Loc parts))) : World α parts :=
  { w with consumerView := w.consumerView.join view }

/-- One step of the system. -/
def World.step (w : World α parts) : Label α parts → Option (World α parts)
  | .callPush value =>
      if w.producer.inCall then none
      else some { w with
        producer :=
          .pushing value .loadCapacity ⟨w.producerView.cur (.inl .head), 0, w.room⟩
        room := false }
  | .callFull next rest =>
      if w.producer.inCall ∨ ¬ (next :: rest).Perm [.tail, .head, .capacity] then none
      else some { w with producer := .checking ⟨next, rest, fun _ => 0⟩ }
  | .produce t =>
      match w.producer with
      | .pushing value pc log =>
          (performIn plain (pushOrder pc) t w.mem w.producerView (tryPush value pc)).map
            fun (mem, view, next, raced) => { w with
              mem := mem
              producerView := view
              producer := .afterPush value (log.note t pc) next
              accepted := accept value w.accepted next
              raced := w.raced || raced }
      | .checking pc =>
          (performIn plain (fullOrder pc) t w.mem w.producerView (full pc)).map
            fun (mem, view, next, raced) => { w with
              mem := mem
              producerView := view
              producer := .afterFull next
              room := w.room || next.elim (fun _ => false) (fun isFull => !isFull)
              raced := w.raced || raced }
      | _ => none
  | .callPop out =>
      if w.consumer.inCall then none
      else some { w with
        consumer := .popping (.loadCapacity out) ⟨w.consumerView.cur (.inl .tail), 0⟩ }
  | .callSize =>
      if w.consumer.inCall then none
      else some { w with consumer := .sizing .loadHead ⟨w.consumerView.cur (.inl .tail), 0⟩ }
  | .consume t =>
      match w.consumer with
      | .popping pc log =>
          (performIn plain (popOrder pc) t w.mem w.consumerView (tryPop pc)).map
            fun (mem, view, next, raced) => { w with
              mem := mem
              consumerView := view
              consumer := .afterPop (log.note t pc) next
              popped := take w.popped next
              raced := w.raced || raced }
      | .sizing pc log =>
          (performIn plain (sizeOrder pc) t w.mem w.consumerView (size pc)).map
            fun (mem, view, next, raced) => { w with
              mem := mem
              consumerView := view
              consumer := .afterSize (log.noteSize t pc) next
              raced := w.raced || raced }
      | _ => none
  | .tellConsumer =>
      if w.consumer.inCall then none
      else some (w.hear w.producerView.cur)
  | .tellProducer =>
      if w.producer.inCall then none
      else some { w with producerView := w.producerView.join w.consumerView.cur }

/-- Run a schedule on a queue of the given depth. -/
def World.run (depth : UInt32) (junk : Nat → Elem α parts) (ls : List (Label α parts)) :
    Option (World α parts) :=
  Run.exec World.step (World.init depth junk) ls

/-! ### What a step leaves alone -/

section

variable {w w' : World α parts} {t : Nat}

/-- An access of `TryPush`: it goes on, or it has accepted the value, or it has not. The
consumer, its view and what it has popped are as before. -/
theorem World.step_pushing {v : Elem α parts} {pc : PushPc} {log : PushLog}
    (hpr : w.producer = .pushing v pc log) (h : w.step (.produce t) = some w') :
    (w'.popped = w.popped ∧ w'.consumer = w.consumer) ∧
      ((∃ pc log, w'.producer = .pushing v pc log ∧ w'.accepted = w.accepted) ∨
        (∃ log, w'.producer = .pushed v log true ∧ w'.accepted = w.accepted ++ [v]) ∨
        ∃ log, w'.producer = .pushed v log false ∧ w'.accepted = w.accepted) := by
  simp only [World.step, hpr] at h
  obtain ⟨⟨mem, view, next, raced⟩, -, rfl⟩ := Option.map_eq_some_iff.mp h
  refine ⟨⟨rfl, rfl⟩, ?_⟩
  rcases next with pc' | _ | _
  · exact .inl ⟨pc', _, rfl, rfl⟩
  · exact .inr (.inr ⟨_, rfl, rfl⟩)
  · exact .inr (.inl ⟨_, rfl, rfl⟩)

/-- An access of the consumer leaves the producer's side alone. -/
theorem World.step_consume (h : w.step (.consume t) = some w') :
    w'.accepted = w.accepted ∧ w'.producer = w.producer ∧ w'.producerView = w.producerView := by
  cases hc : w.consumer with
  | popping pc log | sizing pc log =>
      simp only [World.step, hc] at h
      obtain ⟨⟨mem, view, next, raced⟩, -, rfl⟩ := Option.map_eq_some_iff.mp h
      exact ⟨rfl, rfl, rfl⟩
  | _ => simp [World.step, hc] at h

/-- An access of the consumer's `Size`. -/
theorem World.step_sizing {pc : SizePc} {log : PopLog} (hc : w.consumer = .sizing pc log)
    (h : w.step (.consume t) = some w') :
    w'.popped = w.popped ∧ ∃ log', log'.floor = log.floor ∧
      ((∃ pc, w'.consumer = .sizing pc log') ∨ ∃ n, w'.consumer = .sized log' n) := by
  simp only [World.step, hc] at h
  obtain ⟨⟨mem, view, next, raced⟩, -, rfl⟩ := Option.map_eq_some_iff.mp h
  refine ⟨rfl, log.noteSize t pc, by cases pc <;> rfl, ?_⟩
  cases next with
  | inl pc' => exact .inl ⟨pc', rfl⟩
  | inr n => exact .inr ⟨n, rfl⟩

end

/-! ### What every write carries

An index is written by one thread only and counts up by one, so the number of a write is its
value. The tail number `t` carries the cells of all positions below `t`, and the head number
`t` the marks of all copies out of them: these two are what makes it safe to touch a cell. -/

/-- The values whose `TryPush` has got as far as writing the cell. It is what a cell may
hold already although nobody has been told. -/
def begun (accepted : List (Elem α parts)) : Producer α parts → List (Elem α parts)
  | .pushing v (.copy ..) _ => accepted ++ [v]
  | _ => accepted

/-- The pieces of a value the producer has written to its cell. -/
def Producer.written : Producer α parts → Nat
  | .pushing _ (.copy _ _ i) _ => i
  | _ => 0

/-- The pieces of a value the consumer has read from its cell. -/
def Consumer.read : Consumer α parts → Nat
  | .popping (.copy _ _ _ i) _ => i
  | _ => 0

/-- Whether piece `i` of cell `j` is one of the first `k` pieces of the cell of position `n`. -/
def underWay (C n k j i : Nat) : Nat := if j = n % C ∧ i < k then 1 else 0

theorem underWay_zero (C n j i : Nat) : underWay C n 0 j i = 0 := by
  simp [underWay]

/-- One more piece. -/
theorem underWay_succ (C n k j i : Nat) :
    underWay C n (k + 1) j i = underWay C n k j i + if j = n % C ∧ i = k then 1 else 0 := by
  unfold underWay
  by_cases hj : j = n % C
  · simp only [hj, true_and]
    split_ifs <;> omega
  · simp [hj]

/-- All the pieces: the cell has been visited once more. -/
theorem laps_add_underWay {C k i : Nat} (hi : i < k) (n j : Nat) :
    laps C n j + underWay C n k j i = laps C (n + 1) j := by
  rw [Laps.laps_succ, underWay]
  simp [hi]

/-- What the write number `t` of a place says, and what it carries, in a queue of capacity
`C` when the pushes are of the values `vs`. Both indices count, and a cell's `k`-th write is
the value of the `k`-th position it stands for. -/
def Good (C : UInt64) (vs : List (Elem α parts)) :
    (l : Place (Loc parts)) → Nat → Message (Place (Loc parts)) (Marked (Val α parts) l) → Prop
  | .inl .capacity, _, m => m.value = C
  | .inl .tail, t, m => UInt64.toNat m.value = t ∧
      ∀ p < t, ∀ i, p / C.toNat + 1 ≤ m.view (.inl (.cell (p % C.toNat) i))
  | .inl .head, t, m => UInt64.toNat m.value = t ∧
      ∀ p < t, ∀ i, p / C.toNat + 1 ≤ m.view (.inr (.cell (p % C.toNat) i))
  | .inl (.cell j i), t, m => ∀ k, t = k + 1 → ∃ v, vs[j + k * C.toNat]? = some v ∧ m.value = v i
  | .inr _, _, _ => True

/-! ### The invariant

A thread knows its own index exactly and has a bound on the other's. What it does next needs
one thing: that the cell it is going to visit is not the other's. The lengths of the
modification orders say where the two are, and the views say what each of them knows of it;
the two thread invariants connect a program counter with both. -/

/-- What a `TryPush` knows at its program counter, with `n` values accepted and `p` popped.
From the head it has loaded, the producer knows that the cell is free and that the copy out
of it, a lap ago, happened before. -/
def PushInv (C : UInt64) (n p : Nat) (view : ThreadView (Place (Loc parts))) : PushPc → Prop
  | .loadCapacity => True
  | .loadTail c => c = C
  | .loadHead c tail => c = C ∧ tail.toNat = n
  | .copy c tail _ => c = C ∧ tail.toNat = n ∧ n < p + C.toNat ∧
      n < view.cur (.inl .head) + C.toNat ∧
      ∀ i, n / C.toNat ≤ view.cur (.inr (.cell (n % C.toNat) i))

/-- What `Full` has loaded for an operand. A loaded head may be old, and is then too small. -/
def Operand.Loaded (C : UInt64) (n : Nat) (view : ThreadView (Place (Loc parts))) (x : UInt64) :
    Operand → Prop
  | .tail => x.toNat = n
  | .head => x.toNat ≤ n ∧ x.toNat ≤ view.cur (.inl .head)
  | .capacity => x = C

/-- What is known of the producer, inside a call and behind it. -/
def ProducerInv (C : UInt64) (n p : Nat) (view : ThreadView (Place (Loc parts))) :
    Producer α parts → Prop
  | .idle | .checked _ => True
  | .pushing _ pc log => PushInv C n p view pc ∧ log.floor ≤ view.cur (.inl .head) ∧
      (log.room = true → n < view.cur (.inl .head) + C.toNat)
  | .checking pc => ∀ o, o ∉ pc.next :: pc.rest → Operand.Loaded C n view (pc.seen o) o
  | .pushed _ log ok => (ok = false → log.floor ≤ log.head ∧ log.head + C.toNat = n) ∧
      (log.room = true → ok = true)

/-- What a `TryPop` knows at its program counter. From the tail it has loaded, the consumer
knows that the cell is full and that its pieces were written before; those it has copied are
those of the value pushed there. -/
def PopInv (C : UInt64) (accepted : List (Elem α parts)) (p : Nat)
    (view : ThreadView (Place (Loc parts))) : PopPc α parts → Prop
  | .loadCapacity _ => True
  | .loadHead _ c => c = C
  | .loadTail _ c head => c = C ∧ head.toNat = p
  | .copy out c head k => c = C ∧ head.toNat = p ∧ p < view.cur (.inl .tail) ∧
      (∀ i, p / C.toNat + 1 ≤ view.cur (.inl (.cell (p % C.toNat) i))) ∧
      ∃ v, accepted[p]? = some v ∧ ∀ i : Fin parts, i.val < k → out i = v i

/-- What is known of the consumer, inside a call and behind it. -/
def ConsumerInv (C : UInt64) (accepted : List (Elem α parts)) (p : Nat)
    (view : ThreadView (Place (Loc parts))) : Consumer α parts → Prop
  | .idle => True
  | .popping pc log => PopInv C accepted p view pc ∧ log.floor ≤ view.cur (.inl .tail)
  | .sizing .loadHead log => log.floor ≤ view.cur (.inl .tail)
  | .sizing (.loadTail head) log => head.toNat = p ∧ log.floor ≤ view.cur (.inl .tail)
  | .popped log ok _ => ok = false → log.floor ≤ log.tail ∧ log.tail = p
  | .sized log n => log.floor ≤ log.tail ∧ log.tail = p + n.toNat ∧ log.tail ≤ accepted.length

/-- The invariant of the system. The tail and the cells are the producer's to write, the
head and the marks the consumer's. So the four lengths are known from how many values were
accepted and popped and from how far the call under way is. -/
structure Inv (C : UInt64) (w : World α parts) : Prop where
  pos : 0 < C.toNat
  written : ∀ l t m, (w.mem l)[t]? = some m → Good C (begun w.accepted w.producer) l t m
  tail_length : (w.mem (.inl .tail)).length = w.accepted.length + 1
  head_length : (w.mem (.inl .head)).length = w.popped.length + 1
  cell_length : ∀ j i, (w.mem (.inl (.cell j i))).length = laps C.toNat w.accepted.length j +
    underWay C.toNat w.accepted.length w.producer.written j i + 1
  mark_length : ∀ j i, (w.mem (.inr (.cell j i))).length = laps C.toNat w.popped.length j +
    underWay C.toNat w.popped.length w.consumer.read j i + 1
  knowsTail : UpToDate w.mem w.producerView (.inl .tail)
  knowsCells : ∀ j i, UpToDate w.mem w.producerView (.inl (.cell j i))
  knowsHead : UpToDate w.mem w.consumerView (.inl .head)
  knowsMarks : ∀ j i, UpToDate w.mem w.consumerView (.inr (.cell j i))
  fifo : w.popped <+: w.accepted
  bounded : w.accepted.length ≤ w.popped.length + C.toNat
  known : w.accepted.length ≤ w.producerView.cur (.inl .head) + C.toNat
  heard : w.popped.length ≤ w.consumerView.cur (.inl .tail)
  producer : ProducerInv C w.accepted.length w.popped.length w.producerView w.producer
  consumer : ConsumerInv C w.accepted w.popped.length w.consumerView w.consumer
  room : w.room = true → w.accepted.length < w.producerView.cur (.inl .head) + C.toNat
  called : ∀ v pc log, w.producer = .pushing v pc log → w.room = false
  unraced : w.raced = false

variable {C : UInt64} {w w' : World α parts} {n n' p p' t : Nat}
  {view view' : ThreadView (Place (Loc parts))}

/-! ### What one thread knows survives the other -/

theorem PushInv.mono {pc : PushPc} (h : PushInv C n p view pc) (hp : p ≤ p')
    (hv : view.Le view') : PushInv C n p' view' pc := by
  cases pc with
  | copy c tail k =>
      obtain ⟨hc, ht, hn, hhead, hmarks⟩ := h
      exact ⟨hc, ht, by omega, hhead.trans_le (Nat.add_le_add_right (hv.cur _) _),
        fun i => (hmarks i).trans (hv.cur _)⟩
  | _ => exact h

theorem ProducerInv.mono {pr : Producer α parts} (h : ProducerInv C n p view pr) (hp : p ≤ p')
    (hv : view.Le view') : ProducerInv C n p' view' pr := by
  have hhead : view.cur (.inl .head) ≤ view'.cur (.inl .head) := hv.cur _
  cases pr with
  | pushing v pc log =>
      obtain ⟨hpc, hfloor, hroom⟩ := h
      exact ⟨hpc.mono hp hv, hfloor.trans hhead, fun hr => by have := hroom hr; omega⟩
  | checking pc =>
      intro o ho
      have hload := h o ho
      cases o with
      | head => exact ⟨hload.1, hload.2.trans hhead⟩
      | _ => exact hload
  | _ => exact h

theorem PopInv.mono {pc : PopPc α parts} {accepted accepted' : List (Elem α parts)}
    (h : PopInv C accepted p view pc) (ha : accepted <+: accepted') (hv : view.Le view') :
    PopInv C accepted' p view' pc := by
  cases pc with
  | copy out c head k =>
      obtain ⟨hc, hh, hlt, hcell, v, hget, hout⟩ := h
      exact ⟨hc, hh, hlt.trans_le (hv.cur _), fun i => (hcell i).trans (hv.cur _), v,
        Word.getElem?_of_prefix ha hget, hout⟩
  | _ => exact h

theorem ConsumerInv.mono {c : Consumer α parts} {accepted accepted' : List (Elem α parts)}
    (h : ConsumerInv C accepted p view c) (ha : accepted <+: accepted') (hv : view.Le view') :
    ConsumerInv C accepted' p view' c := by
  cases c with
  | popping pc log => exact ⟨h.1.mono ha hv, h.2.trans (hv.cur _)⟩
  | sizing pc log =>
      cases pc with
      | loadHead => exact h.trans (hv.cur _)
      | loadTail head => exact ⟨h.1, h.2.trans (hv.cur _)⟩
  | sized log n => exact ⟨h.1, h.2.1, h.2.2.trans ha.length_le⟩
  | _ => exact h

theorem Good.mono {vs vs' : List (Elem α parts)} (hvs : vs <+: vs') {l : Place (Loc parts)}
    {m : Message (Place (Loc parts)) (Marked (Val α parts) l)} (h : Good C vs l t m) :
    Good C vs' l t m := by
  rcases l with (_ | _ | _ | ⟨j, i⟩) | l
  · exact h
  · exact h
  · exact h
  · intro k hk
    obtain ⟨v, hv, hval⟩ := h k hk
    exact ⟨v, Word.getElem?_of_prefix hvs hv, hval⟩
  · trivial

end XmBase.Concurrency.WeakQueue
