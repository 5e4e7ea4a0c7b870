import XmBase.Lib.Atomic
import XmBase.Lib.Run
import Mathlib.Data.List.Perm.Basic
import Mathlib.Tactic.SplitIfs
/-!
# XmBase.Concurrency.SpscQueue

The model of `SpscQueue<T>` (`include/xmbase/concurrency/spsc_queue.hpp`), the
bounded single-producer single-consumer ring, and of the system it is used in:
one producer, one consumer, any number of threads that look at the depth gauge.

* The placed storage is a memory over `Loc`: the three words of `Control`, which
  are atomics, and the cells, which are not. A value of `T` is copied by any
  number of steps, so it is a family of `parts` pieces, each its own location; a
  schedule can cut the plain assignment of a cell between any two of them.
* The array bound does not appear in the locations. That only cells below the
  capacity are touched is a result.
* As for the seqlock ring, each verb has one constructor of its program counter
  per access, and the semantics is sequentially consistent.
-/

namespace XmBase.Concurrency.SpscQueue

open Atomic (Access Code)

/-- A value of `T`. It need not be trivially copyable, so its pieces are not bytes. -/
abbrev Elem (α : Type) (parts : Nat) := Fin parts → α

/-- The fields of `Control`, and the pieces of the cells. -/
inductive Loc (parts : Nat)
  | capacity
  | head
  | tail
  | cell (j : Nat) (i : Fin parts)
  deriving DecidableEq

/-- The control words are 64-bit. -/
@[reducible] def Val (α : Type) (parts : Nat) : Loc parts → Type
  | .capacity | .head | .tail => UInt64
  | .cell _ _ => α

/-- The contents of the placed control block and cells. -/
abbrev Mem (α : Type) (parts : Nat) := Atomic.Mem (Val α parts)

/-- The depth an initializing constructor settles on: zero acts as one. -/
def effectiveDepth (depth : UInt32) : UInt32 := if depth = 0 then 1 else depth

theorem effectiveDepth_pos (depth : UInt32) : 0 < (effectiveDepth depth).toNat := by
  unfold effectiveDepth
  split
  · decide
  · next hne => exact Nat.pos_of_ne_zero fun h => hne (UInt32.toNat_inj.mp h)

variable {α : Type} {parts : Nat}

/-- The storage as the constructor leaves it; `junk` is what the cells hold before anything
was pushed. On the heap they are value-initialized, in a region they may hold anything. -/
def constructed (depth : UInt32) (junk : Nat → Elem α parts) : Mem α parts
  | .capacity => (effectiveDepth depth).toUInt64
  | .head | .tail => (0 : UInt64)
  | .cell j i => junk j i

/-! ### The verbs

Each side owns one index and only loads the other's, so there is no read-modify-write here
either. The element is copied between the check and the store that publishes it, one piece
at a time, and the other side runs meanwhile. `Full` loads three words whose order C++ does
not fix within one expression, so the order is part of the call. -/

/-- Program counter of `TryPush`. -/
inductive PushPc
  /-- `capacity.load`. -/
  | loadCapacity
  /-- `tail.load`. -/
  | loadTail (capacity : UInt64)
  /-- `head.load` (Q1). -/
  | loadHead (capacity tail : UInt64)
  /-- The assignment of `cells_[tail % capacity]`; past the last piece,
  `tail.store(tail + 1)` (Q3). -/
  | copy (capacity tail : UInt64) (i : Nat)
  deriving DecidableEq, Repr

/-- `TryPush(value)`. The subtraction wraps, as on `std::uint64_t`; that it gives the number
of elements all the same is part of the invariant. -/
def tryPush (value : Elem α parts) : Code (Val α parts) PushPc Bool
  | .loadCapacity => .load .capacity fun capacity => .inl (.loadTail capacity)
  | .loadTail capacity => .load .tail fun tail => .inl (.loadHead capacity tail)
  | .loadHead capacity tail => .load .head fun head =>
      if tail - head ≥ capacity then .inr false else .inl (.copy capacity tail 0)
  | .copy capacity tail i =>
      if h : i < parts then
        .store (.cell (tail % capacity).toNat ⟨i, h⟩) (value ⟨i, h⟩) (.inl (.copy capacity tail (i + 1)))
      else
        .store .tail (tail + 1) (.inr true)

/-- Program counter of `TryPop`; `out` is what the caller's object holds. -/
inductive PopPc (α : Type) (parts : Nat)
  /-- `capacity.load`. -/
  | loadCapacity (out : Elem α parts)
  /-- `head.load`. -/
  | loadHead (out : Elem α parts) (capacity : UInt64)
  /-- `tail.load` (Q4). -/
  | loadTail (out : Elem α parts) (capacity head : UInt64)
  /-- The assignment from `cells_[head % capacity]`; past the last piece,
  `head.store(head + 1)` (Q2). -/
  | copy (out : Elem α parts) (capacity head : UInt64) (i : Nat)

/-- `TryPop(out)`: returns whether a value was taken, and `out` afterwards. Only the copy
writes to `out`, so a call that returns false leaves it alone. -/
def tryPop : Code (Val α parts) (PopPc α parts) (Bool × Elem α parts)
  | .loadCapacity out => .load .capacity fun capacity => .inl (.loadHead out capacity)
  | .loadHead out capacity => .load .head fun head => .inl (.loadTail out capacity head)
  | .loadTail out capacity head => .load .tail fun tail =>
      if head = tail then .inr (false, out) else .inl (.copy out capacity head 0)
  | .copy out capacity head i =>
      if h : i < parts then
        .load (.cell (head % capacity).toNat ⟨i, h⟩) fun x =>
          .inl (.copy (Function.update out ⟨i, h⟩ x) capacity head (i + 1))
      else
        .store .head (head + 1) (.inr (true, out))

/-- The operands of `Full`'s expression `tail - head >= capacity`. -/
inductive Operand
  | tail
  | head
  | capacity
  deriving DecidableEq, Repr

/-- Program counter of `Full`: the operand loaded next, those still to come, and
the values of those already loaded. -/
structure FullPc where
  next : Operand
  rest : List Operand
  seen : Operand → UInt64

/-- `Full()`. The language leaves the order of the three loads open, so the order
is part of the program counter. -/
def full : Code (Val α parts) FullPc Bool
  | ⟨.tail, rest, seen⟩ => .load .tail fun x => fullNext rest (Function.update seen .tail x)
  | ⟨.head, rest, seen⟩ => .load .head fun x => fullNext rest (Function.update seen .head x)
  | ⟨.capacity, rest, seen⟩ =>
      .load .capacity fun x => fullNext rest (Function.update seen .capacity x)
where
  /-- The next operand, or the value of the expression. -/
  fullNext (rest : List Operand) (seen : Operand → UInt64) : FullPc ⊕ Bool :=
    match rest with
    | o :: rest => .inl ⟨o, rest, seen⟩
    | [] => .inr (decide (seen .tail - seen .head ≥ seen .capacity))

/-- Program counter of `Size`. -/
inductive SizePc
  /-- `head.load`. -/
  | loadHead
  /-- `tail.load`. -/
  | loadTail (head : UInt64)
  deriving DecidableEq, Repr

/-- `Size()`. If the tail was loaded before it passed the head, the answer is zero. -/
def size : Code (Val α parts) SizePc UInt64
  | .loadHead => .load .head fun head => .inl (.loadTail head)
  | .loadTail head => .load .tail fun tail => .inr (if tail ≥ head then tail - head else 0)

/-! ### The system

`History` and `PushLog` are history variables; no step reads them. The history is made of
answers alone: what the callers were told, not what the code did to the memory. That the
memory agrees with it is the content of the results about the queue. -/

/-- What the callers have been told so far. No step looks at it. -/
structure History (α : Type) (parts : Nat) where
  /-- Values whose `TryPush` returned true, in order. -/
  accepted : List (Elem α parts)
  /-- Values that `TryPop` delivered when it returned true, in order. -/
  popped : List (Elem α parts)
  /-- `Full()` returned false and `TryPush` was not called since. -/
  room : Bool

/-- What a `TryPush` has done so far. -/
structure PushLog where
  /-- Elements in the queue at the head load. -/
  occupancy : Nat
  /-- `room` when the call was made. -/
  room : Bool
  /-- Accesses made. -/
  accesses : Nat

/-- The producer thread: between calls, inside one, or just returned from one. What it
returned stays with it, so a result can speak of the answer. -/
inductive Producer (α : Type) (parts : Nat)
  | idle
  | pushing (value : Elem α parts) (pc : PushPc) (log : PushLog)
  | checking (pc : FullPc)
  | pushed (value : Elem α parts) (log : PushLog) (ok : Bool)
  | checked (isFull : Bool)

/-- The consumer thread. `occupancy` counts the elements at the tail load. -/
inductive Consumer (α : Type) (parts : Nat)
  | idle
  | popping (pc : PopPc α parts) (occupancy : Nat)
  | popped (occupancy : Nat) (ok : Bool) (out : Elem α parts)

/-- A thread that reads the depth gauge. Any number of them may be inside a call at a time. -/
inductive Monitor
  | idle
  | sizing (pc : SizePc)
  | sized (n : UInt64)

/-- The whole system: the words and pieces, the two sides, the threads that look, and the
history. -/
structure World (α : Type) (parts : Nat) (ι : Type) where
  mem : Mem α parts
  producer : Producer α parts
  consumer : Consumer α parts
  monitors : ι → Monitor
  hist : History α parts

/-- The system right after construction. -/
def World.init (depth : UInt32) (junk : Nat → Elem α parts) (ι : Type) : World α parts ι where
  mem := constructed depth junk
  producer := .idle
  consumer := .idle
  monitors := fun _ => .idle
  hist := ⟨[], [], false⟩

/-- Who moves, and how. -/
inductive Label (α : Type) (parts : Nat) (ι : Type)
  | callPush (value : Elem α parts)
  /-- The producer calls `Full()`, whose loads happen in the given order. -/
  | callFull (next : Operand) (rest : List Operand)
  /-- The producer makes its next access. -/
  | produce
  | callPop (out : Elem α parts)
  /-- The consumer makes its next access. -/
  | consume
  | callSize (r : ι)
  /-- Monitor `r` makes its next access. -/
  | monitor (r : ι)

/-- The producer is inside a call. -/
def Producer.inCall : Producer α parts → Bool
  | .pushing .. | .checking _ => true
  | _ => false

/-- The consumer is inside a call. -/
def Consumer.inCall : Consumer α parts → Bool
  | .popping .. => true
  | _ => false

/-- Elements in the queue. -/
def queued (m : Mem α parts) : Nat := (m .tail).toNat - (m .head).toNat

/-- Log the access a `TryPush` is about to make. -/
def PushLog.note (log : PushLog) (m : Mem α parts) : PushPc → PushLog
  | .loadHead .. => { log with occupancy := queued m, accesses := log.accesses + 1 }
  | _ => { log with accesses := log.accesses + 1 }

/-- What an access of `TryPush(value)` adds to the history: the value, if the call returns
true by it. -/
def History.afterPush (value : Elem α parts) (h : History α parts) : PushPc ⊕ Bool → History α parts
  | .inr true => { h with accepted := h.accepted ++ [value] }
  | _ => h

/-- What an access of `TryPop` adds to the history: what the caller's object holds, if the
call returns true by it. -/
def History.afterPop (h : History α parts) :
    PopPc α parts ⊕ (Bool × Elem α parts) → History α parts
  | .inr (true, out) => { h with popped := h.popped ++ [out] }
  | _ => h

variable {ι : Type} [DecidableEq ι]

/-- One step of the system. A thread that is inside a call cannot make another one. -/
def World.step (w : World α parts ι) : Label α parts ι → Option (World α parts ι)
  | .callPush value =>
      if w.producer.inCall then none
      else some { w with
        producer := .pushing value .loadCapacity ⟨0, w.hist.room, 0⟩
        hist := { w.hist with room := false } }
  | .callFull next rest =>
      if w.producer.inCall ∨ ¬ (next :: rest).Perm [.tail, .head, .capacity] then none
      else some { w with producer := .checking ⟨next, rest, fun _ => 0⟩ }
  | .produce =>
      match w.producer with
      | .pushing value pc log => some { w with
          mem := ((tryPush value pc).exec w.mem).1
          producer := match ((tryPush value pc).exec w.mem).2 with
            | .inl pc' => .pushing value pc' (log.note w.mem pc)
            | .inr ok => .pushed value (log.note w.mem pc) ok
          hist := w.hist.afterPush value ((tryPush value pc).exec w.mem).2 }
      | .checking pc => some { w with
          producer := match ((full pc).exec w.mem).2 with
            | .inl pc' => .checking pc'
            | .inr isFull => .checked isFull
          hist := match ((full pc).exec w.mem).2 with
            | .inl _ => w.hist
            | .inr isFull => { w.hist with room := w.hist.room || !isFull } }
      | _ => none
  | .callPop out =>
      if w.consumer.inCall then none
      else some { w with consumer := .popping (.loadCapacity out) 0 }
  | .consume =>
      match w.consumer with
      | .popping pc occ => some { w with
          mem := ((tryPop pc).exec w.mem).1
          consumer :=
            let occ' := match pc with
              | .loadTail .. => queued w.mem
              | _ => occ
            match ((tryPop pc).exec w.mem).2 with
            | .inl pc' => .popping pc' occ'
            | .inr (ok, out) => .popped occ' ok out
          hist := w.hist.afterPop ((tryPop pc).exec w.mem).2 }
      | _ => none
  | .callSize r =>
      match w.monitors r with
      | .sizing _ => none
      | _ => some { w with monitors := Function.update w.monitors r (.sizing .loadHead) }
  | .monitor r =>
      match w.monitors r with
      | .sizing pc => some { w with
          monitors := Function.update w.monitors r (match ((size pc).exec w.mem).2 with
            | .inl pc' => .sizing pc'
            | .inr n => .sized n) }
      | _ => none

/-- Run a schedule on a queue of the given depth. -/
def World.run (depth : UInt32) (junk : Nat → Elem α parts) (ls : List (Label α parts ι)) :
    Option (World α parts ι) :=
  Run.exec World.step (World.init depth junk ι) ls

/-! ### What a step can do -/

/-- The value an operand of `Full` loads. -/
def Operand.read (m : Mem α parts) : Operand → UInt64
  | .tail => m .tail
  | .head => m .head
  | .capacity => m .capacity

theorem full_exec (m : Mem α parts) (o : Operand) (rest : List Operand) (seen : Operand → UInt64) :
    (full ⟨o, rest, seen⟩).exec m = (m, full.fullNext rest (Function.update seen o (o.read m))) := by
  cases o <;> rfl

/-- Every move of the producer, on memory, history and producer. -/
inductive ProducerMove : Mem α parts → History α parts → Producer α parts →
    Mem α parts → History α parts → Producer α parts → Prop
  | callPush (m h p v) (hp : p.inCall = false) :
      ProducerMove m h p m { h with room := false } (.pushing v .loadCapacity ⟨0, h.room, 0⟩)
  | callFull (m h p o rest) (hp : p.inCall = false)
      (hperm : (o :: rest).Perm [.tail, .head, .capacity]) :
      ProducerMove m h p m h (.checking ⟨o, rest, fun _ => 0⟩)
  | loadCapacity (m h v) (log : PushLog) :
      ProducerMove m h (.pushing v .loadCapacity log) m h
        (.pushing v (.loadTail (m .capacity)) (log.note m .loadCapacity))
  | loadTail (m h v c) (log : PushLog) :
      ProducerMove m h (.pushing v (.loadTail c) log) m h
        (.pushing v (.loadHead c (m .tail)) (log.note m (.loadTail c)))
  | refuse (m h v c t) (log : PushLog) (hfull : t - m .head ≥ c) :
      ProducerMove m h (.pushing v (.loadHead c t) log) m h
        (.pushed v (log.note m (.loadHead c t)) false)
  | accept (m h v c t) (log : PushLog) (hroom : ¬ t - m .head ≥ c) :
      ProducerMove m h (.pushing v (.loadHead c t) log) m h
        (.pushing v (.copy c t 0) (log.note m (.loadHead c t)))
  | copy (m h v c t i) (log : PushLog) (hi : i < parts) :
      ProducerMove m h (.pushing v (.copy c t i) log)
        (Function.update m (.cell (t % c).toNat ⟨i, hi⟩) (v ⟨i, hi⟩)) h
        (.pushing v (.copy c t (i + 1)) (log.note m (.copy c t i)))
  | storeTail (m h v c t i) (log : PushLog) (hi : ¬ i < parts) :
      ProducerMove m h (.pushing v (.copy c t i) log)
        (Function.update m .tail (t + 1)) { h with accepted := h.accepted ++ [v] }
        (.pushed v (log.note m (.copy c t i)) true)
  | look (m h o o' rest seen) :
      ProducerMove m h (.checking ⟨o, o' :: rest, seen⟩) m h
        (.checking ⟨o', rest, Function.update seen o (o.read m)⟩)
  | decide (m h o) (seen seen' : Operand → UInt64) (b : Bool)
      (hs : seen' = Function.update seen o (o.read m))
      (hb : b = Decidable.decide (seen' .tail - seen' .head ≥ seen' .capacity)) :
      ProducerMove m h (.checking ⟨o, [], seen⟩) m { h with room := h.room || !b } (.checked b)

/-- Every move of the consumer, on memory, history and consumer. -/
inductive ConsumerMove : Mem α parts → History α parts → Consumer α parts →
    Mem α parts → History α parts → Consumer α parts → Prop
  | callPop (m h c out) (hc : c.inCall = false) :
      ConsumerMove m h c m h (.popping (.loadCapacity out) 0)
  | loadCapacity (m h out occ) :
      ConsumerMove m h (.popping (.loadCapacity out) occ) m h
        (.popping (.loadHead out (m .capacity)) occ)
  | loadHead (m h out c occ) :
      ConsumerMove m h (.popping (.loadHead out c) occ) m h
        (.popping (.loadTail out c (m .head)) occ)
  | empty (m h out c hd occ) (heq : hd = m .tail) :
      ConsumerMove m h (.popping (.loadTail out c hd) occ) m h (.popped (queued m) false out)
  | claim (m h out c hd occ) (hne : hd ≠ m .tail) :
      ConsumerMove m h (.popping (.loadTail out c hd) occ) m h
        (.popping (.copy out c hd 0) (queued m))
  | copy (m h out c hd i occ) (hi : i < parts) :
      ConsumerMove m h (.popping (.copy out c hd i) occ) m h
        (.popping (.copy (Function.update out ⟨i, hi⟩ (m (.cell (hd % c).toNat ⟨i, hi⟩))) c hd (i + 1))
          occ)
  | storeHead (m h out c hd i occ) (hi : ¬ i < parts) :
      ConsumerMove m h (.popping (.copy out c hd i) occ)
        (Function.update m .head (hd + 1)) { h with popped := h.popped ++ [out] }
        (.popped occ true out)

/-- **Every step is a move of one thread**, and leaves the others alone. -/
theorem World.step_cases {w w' : World α parts ι} {l : Label α parts ι} (h : w.step l = some w') :
    (ProducerMove w.mem w.hist w.producer w'.mem w'.hist w'.producer ∧ w'.consumer = w.consumer) ∨
    (ConsumerMove w.mem w.hist w.consumer w'.mem w'.hist w'.consumer ∧ w'.producer = w.producer) ∨
    (w'.mem = w.mem ∧ w'.hist = w.hist ∧ w'.producer = w.producer ∧ w'.consumer = w.consumer) := by
  obtain ⟨m, p, c, ms, hist⟩ := w
  cases l with
  | callPush v =>
      simp only [World.step] at h
      split_ifs at h with hp
      obtain rfl := Option.some.inj h
      exact Or.inl ⟨.callPush m hist p v (by simpa using hp), rfl⟩
  | callFull o rest =>
      simp only [World.step] at h
      split_ifs at h with hp
      obtain rfl := Option.some.inj h
      rw [not_or, not_not] at hp
      exact Or.inl ⟨.callFull m hist p o rest (by simpa using hp.1) hp.2, rfl⟩
  | produce =>
      cases p with
      | pushing v pc log =>
          obtain rfl := Option.some.inj h
          refine Or.inl ⟨?_, rfl⟩
          cases pc with
          | loadCapacity => exact .loadCapacity m hist v log
          | loadTail cap => exact .loadTail m hist v cap log
          | loadHead cap t =>
              by_cases hfull : t - m .head ≥ cap
              · simp only [tryPush, Access.exec_load, if_pos hfull]
                exact .refuse m hist v cap t log hfull
              · simp only [tryPush, Access.exec_load, if_neg hfull]
                exact .accept m hist v cap t log hfull
          | copy cap t i =>
              by_cases hi : i < parts
              · simp only [tryPush, dif_pos hi]
                exact .copy m hist v cap t i log hi
              · simp only [tryPush, dif_neg hi]
                exact .storeTail m hist v cap t i log hi
      | checking pc =>
          obtain rfl := Option.some.inj h
          obtain ⟨o, rest, seen⟩ := pc
          refine Or.inl ⟨?_, rfl⟩
          -- the loads of `full` come in either order; the last one decides
          rw [full_exec]
          cases rest with
          | nil => exact .decide m hist o seen _ _ rfl rfl
          | cons o' rest => exact .look m hist o o' rest seen
      | _ => simp [World.step] at h
  | callPop out =>
      simp only [World.step] at h
      split_ifs at h with hc
      obtain rfl := Option.some.inj h
      exact Or.inr (Or.inl ⟨.callPop m hist c out (by simpa using hc), rfl⟩)
  | consume =>
      cases c with
      | popping pc occ =>
          obtain rfl := Option.some.inj h
          refine Or.inr (Or.inl ⟨?_, rfl⟩)
          cases pc with
          | loadCapacity out => exact .loadCapacity m hist out occ
          | loadHead out cap => exact .loadHead m hist out cap occ
          | loadTail out cap hd =>
              by_cases heq : hd = m .tail
              · simp only [tryPop, Access.exec_load, if_pos heq]
                exact .empty m hist out cap hd occ heq
              · simp only [tryPop, Access.exec_load, if_neg heq]
                exact .claim m hist out cap hd occ heq
          | copy out cap hd i =>
              by_cases hi : i < parts
              · simp only [tryPop, dif_pos hi]
                exact .copy m hist out cap hd i occ hi
              · simp only [tryPop, dif_neg hi]
                exact .storeHead m hist out cap hd i occ hi
      | _ => simp [World.step] at h
  -- a monitor only loads
  | callSize r =>
      simp only [World.step] at h
      split at h
      · cases h
      · obtain rfl := Option.some.inj h
        exact Or.inr (Or.inr ⟨rfl, rfl, rfl, rfl⟩)
  | monitor r =>
      simp only [World.step] at h
      split at h
      · obtain rfl := Option.some.inj h
        exact Or.inr (Or.inr ⟨rfl, rfl, rfl, rfl⟩)
      · cases h

end XmBase.Concurrency.SpscQueue
