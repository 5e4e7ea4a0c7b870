import XmBase.Concurrency.RingAnswers
import XmBase.Lib.Laps
import XmBase.Lib.WeakMemory
/-!
# XmBase.Concurrency.WeakRing

The seqlock ring with the memory orders of the source
(`include/xmbase/concurrency/detail/seqlock_ring.hpp`): the same accesses as in
`XmBase.Concurrency.SeqlockRing`, now over a memory where a load may return an old write
(`XmBase.Lib.WeakMemory`). The pairs the header names are the orders given here:

* (W1), (R2): the odd sequence is stored in front of a release fence, the second sequence
  is loaded behind an acquire fence;
* (W2), (R1): the even sequence is a release store, the first sequence an acquire load;
* (W3), (R0): the cursor is a release store, and its capture an acquire load.

The writer's side. A store to position `p` is lap `p / N` of cell `p % N`; its odd and even
sequence are the writes number `2 * (p / N) + 1` and `2 * (p / N) + 2` of the sequence, and
its index and words are the writes number `p / N + 1` of theirs. So the place of a write in
the modification order says which store made it, and `Good` says what every write carries.
Readers are in `XmBase.Concurrency.WeakReads`.

No writer dies here. Between their calls readers may synchronize with the writer, and with
each other, by means that are not the ring's.
-/

namespace XmBase.Concurrency.WeakRing

open Atomic (Access)
open Bytes (toWords ofWords)
open Laps (laps)
open WeakMemory (View ThreadView Order UpToDate perform)
open SeqlockRing (Loc Val StorePc ReadPc LoadResult BoundedFrame SnapshotFrame ReadCall cellOf kWords
  zeroed store)

variable {N size : Nat} [NeZero N] {ι : Type} [DecidableEq ι]

/-! ### Orders

The orders the source writes at each access. A fence is taken with the access it stands next
to: `relaxedFenced` is a relaxed store in front of a release fence, `fencedRelaxed` a
relaxed load behind an acquire fence. -/

/-- The orders in `Store`. -/
def storeOrder (size : Nat) : StorePc → Order
  | .loadCount => .relaxed
  | .loadSeq _ => .relaxed
  | .storeOdd _ _ => .relaxedFenced
  | .storeIndex _ _ => .relaxed
  | .copy _ _ i => if i < kWords size then .relaxed else .releasing
  | .storeCount _ => .releasing

/-- The orders in `Load`, `LoadBounded` and `Snapshot`. -/
def readOrder (size : Nat) : ReadPc → Order
  | .capture => .acquiring
  | .first _ => .acquiring
  | .index _ _ => .relaxed
  | .copy _ _ _ staged => if staged.length < kWords size then .relaxed else .fencedRelaxed

/-! ### The system

One writer and any number of readers, every access a step, and every load free to return any
write that its thread's view does not exclude. The history variables are there for the
statements: what was published, and what each reader had heard of when it made a call. -/

/-- What one read call has done: the cursor its thread had seen when it made the call, and
the cursor its last iteration captured. -/
structure Log where
  floor : Nat
  captured : Nat
  deriving DecidableEq, Repr

/-- Log the access at the program counter, which returns the write number `t`. -/
def Log.note (log : Log) (t : Nat) : ReadPc → Log
  | .capture => { log with captured := t }
  | _ => log

/-- A reading thread: between calls, inside one, or just returned from one. -/
inductive Reader (size : Nat)
  | idle
  | load (out : Payload size) (pc : ReadPc) (log : Log)
  | loadBounded (out : Payload size) (maxRetries : UInt32) (frame : BoundedFrame) (log : Log)
  | snapshot (out : Nat → Payload size) (k : Nat) (frame : SnapshotFrame size) (log : Log)
  | loaded (out : Payload size) (log : Log) (found : Bool) (out' : Payload size)
  | loadedBounded (out : Payload size) (log : Log) (result : LoadResult) (out' : Payload size)
  | snapped (out : Nat → Payload size) (k : Nat) (log : Log) (n : Nat) (out' : Nat → Payload size)

def Reader.inCall : Reader size → Bool
  | .load .. | .loadBounded .. | .snapshot .. => true
  | _ => false

/-- A call at its first access. -/
def Reader.atEntry (floor : Nat) : ReadCall size → Reader size
  | .load out => .load out .capture ⟨floor, 0⟩
  | .loadBounded out maxRetries => .loadBounded out maxRetries ⟨0, .capture⟩ ⟨floor, 0⟩
  | .snapshot out k => .snapshot out k ⟨0, out, .capture⟩ ⟨floor, 0⟩

/-- The log of the call the reader has just returned from. -/
def Reader.returned? : Reader size → Option Log
  | .loaded _ log _ _ | .loadedBounded _ log _ _ | .snapped _ _ log _ _ => some log
  | _ => none

/-! The reader after an access: inside the call, or returned from it. -/

def Reader.afterLoad (out : Payload size) (log : Log) :
    ReadPc ⊕ (Bool × Payload size) → Reader size
  | .inl pc => .load out pc log
  | .inr (found, out') => .loaded out log found out'

def Reader.afterLoadBounded (out : Payload size) (maxRetries : UInt32) (log : Log) :
    BoundedFrame ⊕ (LoadResult × Payload size) → Reader size
  | .inl frame => .loadBounded out maxRetries frame log
  | .inr (result, out') => .loadedBounded out log result out'

def Reader.afterSnapshot (out : Nat → Payload size) (k : Nat) (log : Log) :
    SnapshotFrame size ⊕ (Nat × (Nat → Payload size)) → Reader size
  | .inl frame => .snapshot out k frame log
  | .inr (n, out') => .snapped out k log n out'

@[simp] theorem Log.note_floor (log : Log) (t : Nat) (pc : ReadPc) :
    (log.note t pc).floor = log.floor := by
  cases pc <;> rfl

/-- The next access of a reader inside a call, and its order; it will return the write
number `t`. -/
def Reader.access (t : Nat) : Reader size → Option (Order × Access (Val N size) (Reader size))
  | .load out pc log => some (readOrder size pc,
      (SeqlockRing.load out pc).map (.afterLoad out (log.note t pc)))
  | .loadBounded out maxRetries frame log => some (readOrder size frame.pc,
      (SeqlockRing.loadBounded out maxRetries frame).map
        (.afterLoadBounded out maxRetries (log.note t frame.pc)))
  | .snapshot out k frame log => some (readOrder size frame.pc,
      (SeqlockRing.snapshot k frame).map (.afterSnapshot out k (log.note t frame.pc)))
  | _ => none

/-- The whole system. `published`, `calls` and `seen` are history variables: the values
stored so far, the calls of `Store`, and for each reader what it has heard of the cursor,
newest first: what its calls captured, the stores complete at its synchronizations with the
writer, and what it and another reader had heard when they synchronized. -/
structure World (N size : Nat) (ι : Type) where
  mem : WeakMemory.History (Val N size)
  writer : Option (Payload size × StorePc)
  writerView : ThreadView (Loc N size)
  readers : ι → Reader size
  views : ι → ThreadView (Loc N size)
  published : List (Payload size)
  calls : Nat
  seen : ι → List Nat

/-- The system right after construction, which everybody has seen. -/
def World.init (N size : Nat) (ι : Type) : World N size ι where
  mem := .init (zeroed N size)
  writer := none
  writerView := .init
  readers := fun _ => .idle
  views := fun _ => .init
  published := []
  calls := 0
  seen := fun _ => []

/-- Who moves, and how. A load returns the write number `t` of its location. -/
inductive Label (size : Nat) (ι : Type)
  | callStore (value : Payload size)
  /-- The writer performs its next access. -/
  | write (t : Nat)
  | call (r : ι) (c : ReadCall size)
  /-- Reader `r` performs its next access. -/
  | read (r : ι) (t : Nat)
  /-- Reader `r`, between two calls, synchronizes with the writer. -/
  | syncWriter (r : ι)
  /-- Reader `r`, between two calls, synchronizes with reader `s`. -/
  | syncReader (r s : ι)

/-- The values after the writer's access at `pc`. -/
def publish (value : Payload size) (published : List (Payload size)) :
    StorePc → List (Payload size)
  | .storeCount _ => published ++ [value]
  | _ => published

/-- The writer inside the call, or back from it. -/
def goOn (value : Payload size) : StorePc ⊕ Unit → Option (Payload size × StorePc)
  | .inl pc => some (value, pc)
  | .inr () => none

/-- One step of the system. -/
def World.step (w : World N size ι) : Label size ι → Option (World N size ι)
  | .callStore value =>
      match w.writer with
      | none => some { w with writer := some (value, .loadCount), calls := w.calls + 1 }
      | some _ => none
  | .write t =>
      match w.writer with
      | none => none
      | some (value, pc) =>
          (perform (storeOrder size pc) t w.mem w.writerView (store value pc)).map
            fun (mem, view, next) => { w with
              mem := mem
              writerView := view
              writer := goOn value next
              published := publish value w.published pc }
  | .call r c =>
      if (w.readers r).inCall then none
      else some { w with
        readers := Function.update w.readers r (.atEntry ((w.views r).cur .writeCount) c) }
  | .read r t =>
      match (w.readers r).access t with
      | none => none
      | some (order, access) =>
          (perform order t w.mem (w.views r) access).map fun (mem, view, rd) => { w with
            mem := mem
            readers := Function.update w.readers r rd
            views := Function.update w.views r view
            seen := match rd.returned? with
              | some log => Function.update w.seen r (log.captured :: w.seen r)
              | none => w.seen }
  | .syncWriter r =>
      if (w.readers r).inCall then none
      else some { w with
        views := Function.update w.views r ((w.views r).join w.writerView.cur)
        seen := Function.update w.seen r (w.published.length :: w.seen r) }
  | .syncReader r s =>
      if (w.readers r).inCall then none
      else some { w with
        views := Function.update w.views r ((w.views r).join (w.views s).cur)
        seen := Function.update w.seen r
          (max ((w.seen r).headD 0) ((w.seen s).headD 0) :: w.seen r) }

/-- Run a schedule from the freshly constructed ring. -/
def World.run (ls : List (Label size ι)) : Option (World N size ι) :=
  Run.exec World.step (World.init N size ι) ls

/-! ### Which store made a write

The sequence of a cell is written twice a lap and the other words once, and by one thread.
So the number of a write in its modification order tells the lap, and with the cell the
position. Everything a reader can conclude from a load goes through this (`Good`): the
number of the write it got says which store made it and which other writes it must have seen
by now. -/

theorem cellOf_add_mul (n : Nat) : (cellOf n : Fin N).val + n / N * N = n :=
  Nat.mod_add_div' n N

theorem val_cellOf (n : Nat) : (cellOf n : Fin N).val = n % N := rfl

theorem val_eq_mod_iff {j : Fin N} {n : Nat} : j.val = n % N ↔ j = cellOf n := by
  rw [Fin.ext_iff]
  rfl

/-- The writes to a location that `n` complete stores have made. It is the length of the
modification order, less the initial write, between two stores. -/
def finished (n : Nat) : Loc N size → Nat
  | .writeCount => n
  | .seq j => 2 * laps N n j
  | .index j | .words j _ => laps N n j

/-- The writes to a location that a store to position `n` has made so far. -/
def underWay (n : Nat) : Option (Payload size × StorePc) → Loc N size → Nat
  | some (_, .storeIndex ..), .seq j | some (_, .copy ..), .seq j => if j = cellOf n then 1 else 0
  | some (_, .storeCount _), .seq j => if j = cellOf n then 2 else 0
  | some (_, .copy ..), .index j | some (_, .storeCount _), .index j =>
      if j = cellOf n then 1 else 0
  | some (_, .copy _ _ i), .words j k => if j = cellOf n ∧ k.val < i then 1 else 0
  | some (_, .storeCount _), .words j _ => if j = cellOf n then 1 else 0
  | _, _ => 0

/-- The values with an odd sequence stored for them. -/
def begun (published : List (Payload size)) : Option (Payload size × StorePc) → List (Payload size)
  | some (v, .storeIndex ..) | some (v, .copy ..) | some (v, .storeCount _) => published ++ [v]
  | _ => published

/-- What the write number `t` of a location says, and what it carries, when the stores are
of the values `vs`. The cursor carries the even sequences of the stores below it, an even
sequence carries the index and the words of its lap, and an index or a word carries the odd
sequence that was stored, behind a release fence, in front of it. These are the three pairs
of the header. -/
def Good (vs : List (Payload size)) : (l : Loc N size) → Nat → WeakMemory.Message (Loc N size) UInt64 → Prop
  | .writeCount, t, m => m.value.toNat = t ∧
      ∀ p < t, 2 * (p / N) + 2 ≤ m.view (.seq (cellOf p))
  | .seq j, t, m => m.value.toNat = t ∧
      (∀ k, t = 2 * k + 2 → k + 1 ≤ m.view (.index j) ∧ ∀ i, k + 1 ≤ m.view (.words j i)) ∧
      ∀ k, 2 * k + 1 ≤ t → j + k * N < vs.length
  | .index j, t, m => ∀ k, t = k + 1 → m.value.toNat = j + k * N ∧ 2 * k + 1 ≤ m.view (.seq j)
  | .words j i, t, m => ∀ k, t = k + 1 →
      (∃ v, vs[j + k * N]? = some v ∧ m.value = toWords v i) ∧ 2 * k + 1 ≤ m.view (.seq j)

/-- Every write is good. -/
def Written (mem : WeakMemory.History (Val N size)) (vs : List (Payload size)) : Prop :=
  ∀ l t m, (mem l)[t]? = some m → Good vs l t m

/-! ### The writer's invariant

The writer is the only one to write, so its own view is exact and its loads return the
newest write. What its invariant adds is `Written`, which readers use, and the lengths, from
which the number of the next write follows. -/

/-- The writer's registers, and what its release fence has put in front of the writes to the
cell. Below the wrap they are what the position says. -/
def Registers (n : Nat) (view : ThreadView (Loc N size)) : StorePc → Prop
  | .loadCount => True
  | .loadSeq idx => idx.toNat = n
  | .storeOdd idx s => idx.toNat = n ∧ s.toNat = 2 * (n / N)
  | .storeIndex idx s | .copy idx s _ => idx.toNat = n ∧ s.toNat = 2 * (n / N) ∧
      2 * (n / N) + 1 ≤ view.rel (.seq (cellOf n))
  | .storeCount idx => idx.toNat = n

/-- The writer's side of the ring: `n` stores are complete. The lengths say how far the
store under way is, location by location. -/
structure WriterInv (mem : WeakMemory.History (Val N size)) (view : ThreadView (Loc N size))
    (writer : Option (Payload size × StorePc)) (published : List (Payload size)) : Prop where
  written : Written mem (begun published writer)
  upToDate : ∀ l, UpToDate mem view l
  length : ∀ l, (mem l).length = finished published.length l + underWay published.length writer l + 1
  registers : ∀ v pc, writer = some (v, pc) → Registers published.length view pc

theorem Good.mono {vs vs' : List (Payload size)} (hvs : vs <+: vs') {l : Loc N size} {t : Nat}
    {m : WeakMemory.Message (Loc N size) UInt64} (hm : Good vs l t m) : Good vs' l t m := by
  cases l with
  | words j i =>
      intro k hk
      obtain ⟨⟨v, hv, hval⟩, hview⟩ := hm k hk
      exact ⟨⟨v, Word.getElem?_of_prefix hvs hv, hval⟩, hview⟩
  | seq j => exact ⟨hm.1, hm.2.1, fun k hk => (hm.2.2 k hk).trans_le hvs.length_le⟩
  | _ => exact hm

/-- One more write. A new write is good if what it says and carries is; the old ones are
still good. -/
theorem Written.store {mem : WeakMemory.History (Val N size)} {vs vs' : List (Payload size)}
    (hw : Written mem vs) (hvs : vs <+: vs') {l : Loc N size}
    {m : WeakMemory.Message (Loc N size) UInt64} (hm : Good vs' l (mem l).length m) :
    Written (Function.update mem l (mem l ++ [m])) vs' :=
  WeakMemory.History.forall_append (fun l t m hm => (hw l t m hm).mono hvs) hm

section

variable {mem mem' : WeakMemory.History (Val N size)} {view view' : ThreadView (Loc N size)}
  {writer writer' : Option (Payload size × StorePc)} {published published' : List (Payload size)}
  {v : Payload size} {pc : StorePc} {t : Nat}

/-- The writer has stored `x`: it goes on as `writer'`. -/
theorem WriterInv.store (hi : WriterInv mem view writer published) {l : Loc N size} {x : UInt64}
    (hbegun : begun published writer <+: begun published' writer')
    (hgood : Good (begun published' writer') l (mem l).length
      ⟨x, view.released (storeOrder size pc) l (mem l).length⟩)
    (hself : finished published'.length l + underWay published'.length writer' l =
      finished published.length l + underWay published.length writer l + 1)
    (hother : ∀ l' ≠ l, finished published'.length l' + underWay published'.length writer' l' =
      finished published.length l' + underWay published.length writer l')
    (hregisters : ∀ v pc', writer' = some (v, pc') → Registers published'.length
      (view.see (storeOrder size pc) l (mem l).length ⊥) pc') :
    WriterInv
      (Function.update mem l (mem l ++ [⟨x, view.released (storeOrder size pc) l (mem l).length⟩]))
      (view.see (storeOrder size pc) l (mem l).length ⊥) writer' published' where
  written := hi.written.store hbegun hgood
  upToDate := fun l' => (hi.upToDate l').store _ _ _ _
  length := by
    intro l'
    by_cases hl : l' = l
    · subst hl
      rw [Function.update_self, List.length_append, List.length_singleton, hself, hi.length]
    · rw [Function.update_of_ne hl, hother l' hl, hi.length]
  registers := hregisters

/-- The newest write to a location. -/
theorem WriterInv.last (hi : WriterInv mem view writer published) {l : Loc N size}
    {m : WeakMemory.Message (Loc N size) UInt64} (hm : (mem l).getLast? = some m) :
    Good (begun published writer) l
      (finished published.length l + underWay published.length writer l) m := by
  rw [List.getLast?_eq_getElem?, hi.length, Nat.add_sub_cancel] at hm
  exact hi.written l _ m hm

/-- What the writer has seen. -/
theorem WriterInv.le_cur (hi : WriterInv mem view writer published) (l : Loc N size) :
    finished published.length l + underWay published.length writer l ≤ view.cur l := by
  have := hi.upToDate l
  unfold UpToDate at this
  rw [hi.length] at this
  omega

/-- What the writer loads is the newest write. -/
theorem WriterInv.load (hi : WriterInv mem view writer published) {l : Loc N size} {o : Order}
    {k : UInt64 → StorePc ⊕ Unit} {next : StorePc ⊕ Unit}
    (hp : perform o t mem view (.load l k) = some (mem', view', next)) :
    ∃ m, Good (begun published writer) l
        (finished published.length l + underWay published.length writer l) m ∧
      mem' = mem ∧ view.Le view' ∧ next = k m.value := by
  obtain ⟨m, hm, hle, rfl, rfl, rfl⟩ := WeakMemory.perform_load hp
  exact ⟨m, hi.last ((hi.upToDate l).getLast hm hle), rfl, ThreadView.le_see _ _ _ _ _, rfl⟩

/-- **A step of the writer keeps its invariant.** -/
theorem WriterInv.step (hi : WriterInv mem view (some (v, pc)) published)
    (hn : published.length + 1 < 2 ^ 63) {next : StorePc ⊕ Unit}
    (hp : perform (storeOrder size pc) t mem view (SeqlockRing.store v pc) =
      some (mem', view', next)) :
    WriterInv mem' view' (goOn v next) (publish v published pc) := by
  have hreg := hi.registers v pc rfl
  have hdiv := Nat.div_le_self published.length N
  have hself := Laps.laps_self (NeZero.pos N) published.length
  cases pc with
  | loadCount =>
      obtain ⟨m, hm, rfl, hv, rfl⟩ := hi.load hp
      refine ⟨hi.written, fun l => (hi.upToDate l).mono rfl hv, hi.length, ?_⟩
      rintro _ _ ⟨⟩
      exact hm.1
  | loadSeq idx =>
      obtain ⟨m, hm, rfl, hv, rfl⟩ := hi.load hp
      refine ⟨hi.written, fun l => (hi.upToDate l).mono rfl hv, hi.length, ?_⟩
      rintro _ _ ⟨⟩
      refine ⟨hreg, ?_⟩
      have hval := hm.1
      rw [hreg] at hval
      exact hval.trans (by rw [finished, val_cellOf, hself]; rfl)
  | storeOdd idx s =>
      obtain ⟨rfl, rfl, rfl⟩ := WeakMemory.perform_store hp
      obtain ⟨hidx, hs⟩ := hreg
      change WriterInv _ _ (some (v, .storeIndex idx s)) published
      rw [hidx]
      have hlen : (mem (.seq (cellOf published.length))).length = 2 * (published.length / N) + 1 := by
        rw [hi.length, finished, val_cellOf, hself]
        rfl
      refine hi.store (List.prefix_append _ _) ?_ ?_ ?_ ?_
      · rw [hlen]
        refine ⟨?_, fun k hk => by omega, fun k hk => ?_⟩
        · rw [Word.toNat_add_of_lt (by rw [hs]; simp; omega), hs]
          rfl
        · rw [begun, List.length_append, List.length_singleton]
          exact Laps.lap_le (by omega)
      · simp [underWay]
      · intro l' hl
        cases l' <;> simp_all [underWay]
      · rintro _ _ ⟨⟩
        refine ⟨hidx, hs, ?_⟩
        rw [ThreadView.see_rel_of_fence rfl, hlen]
        exact ThreadView.le_see_self _ _ _ _ _
  | storeIndex idx s =>
      obtain ⟨rfl, rfl, rfl⟩ := WeakMemory.perform_store hp
      obtain ⟨hidx, hs, hrel⟩ := hreg
      change WriterInv _ _ (some (v, .copy idx s 0)) published
      rw [hidx]
      refine hi.store (List.prefix_refl _) ?_ ?_ ?_ ?_
      · intro k hk
        obtain rfl : k = published.length / N := by
          rw [hi.length, finished, val_cellOf, hself] at hk
          exact (Nat.succ.inj hk).symm
        exact ⟨by rw [hidx, cellOf_add_mul], hrel.trans (ThreadView.rel_le_released rfl _)⟩
      · simp [underWay]
      · intro l' hl
        cases l' <;> simp_all [underWay]
      · rintro _ _ ⟨⟩
        exact ⟨hidx, hs, by rwa [ThreadView.see_rel_of_not_fence rfl]⟩
  | copy idx s i =>
      obtain ⟨hidx, hs, hrel⟩ := hreg
      by_cases hw : i < kWords size
      · rw [SeqlockRing.store, dif_pos hw] at hp
        obtain ⟨rfl, rfl, rfl⟩ := WeakMemory.perform_store hp
        have ho : storeOrder size (.copy idx s i) = .relaxed := if_pos hw
        change WriterInv _ _ (some (v, .copy idx s (i + 1))) published
        rw [hidx]
        refine hi.store (List.prefix_refl _) ?_ ?_ ?_ ?_
        · intro k hk
          obtain rfl : k = published.length / N := by
            rw [hi.length, finished, val_cellOf, hself] at hk
            simpa [underWay] using hk.symm
          refine ⟨⟨v, ?_, rfl⟩, hrel.trans (ThreadView.rel_le_released (by rw [ho]; rfl) _)⟩
          rw [cellOf_add_mul]
          exact List.getElem?_concat_length
        · simp [underWay]
        · intro l' hl
          cases l' with
          | words j k =>
              have hk : j = cellOf published.length → k.val ≠ i := by
                rintro rfl rfl
                exact hl rfl
              simp only [finished, underWay]
              congr 2
              exact propext ⟨fun h => ⟨h.1, by have := hk h.1; omega⟩, fun h => ⟨h.1, by omega⟩⟩
          | _ => simp [underWay]
        · rintro _ _ ⟨⟩
          exact ⟨hidx, hs, by rwa [ThreadView.see_rel_of_not_fence (by rw [ho]; rfl)]⟩
      · rw [SeqlockRing.store, dif_neg hw] at hp
        obtain ⟨rfl, rfl, rfl⟩ := WeakMemory.perform_store hp
        have ho : storeOrder size (.copy idx s i) = .releasing := if_neg hw
        change WriterInv _ _ (some (v, .storeCount idx)) published
        rw [hidx]
        have hall (k : Fin (kWords size)) : k.val < i := by omega
        refine hi.store (List.prefix_refl _) ?_ ?_ ?_ ?_
        · have hlen : (mem (.seq (cellOf published.length))).length =
              2 * (published.length / N) + 2 := by
            simp [hi.length, finished, underWay, val_cellOf, hself]
          rw [hlen]
          refine ⟨?_, ?_, ?_⟩
          · rw [Word.toNat_add_of_lt (by rw [hs]; simp; omega), hs]
            rfl
          · intro k hk
            obtain rfl : k = published.length / N := by omega
            have hrel : (storeOrder size (.copy idx s i)).release = true := by rw [ho]; rfl
            refine ⟨(hi.le_cur _).trans' ?_ |>.trans (ThreadView.cur_le_released hrel _),
              fun k => (hi.le_cur _).trans' ?_ |>.trans (ThreadView.cur_le_released hrel _)⟩
            · simp [finished, underWay, val_cellOf, hself]
            · simp [finished, underWay, val_cellOf, hself, hall]
          · intro k hk
            rw [begun, List.length_append, List.length_singleton]
            exact Laps.lap_le (by omega)
        · simp [underWay]
        · intro l' hl
          cases l' <;> simp_all [underWay]
        · rintro _ _ ⟨⟩
          exact hidx
  | storeCount idx =>
      obtain ⟨rfl, rfl, rfl⟩ := WeakMemory.perform_store hp
      change WriterInv _ _ none (published ++ [v])
      refine hi.store (List.prefix_refl _) ?_ ?_ ?_ ?_
      · have hlen : (mem .writeCount).length = published.length + 1 := hi.length _
        rw [hlen]
        refine ⟨?_, ?_⟩
        · rw [Word.toNat_add_of_lt (by rw [hreg]; simp; omega), hreg]
          rfl
        · intro p hp
          refine ((hi.le_cur _).trans' ?_).trans (ThreadView.cur_le_released rfl _)
          have hlap := Laps.lap_lt_laps (NeZero.pos N) hp
          rw [Laps.laps_succ, ← val_cellOf] at hlap
          simp only [finished, underWay, ← val_eq_mod_iff]
          split_ifs at hlap ⊢ <;> omega
      · simp [finished, underWay]
      · intro l' hl
        cases l' with
        | writeCount => exact absurd rfl hl
        | _ =>
            simp only [finished, underWay, Laps.laps_succ, val_eq_mod_iff, List.length_append, List.length_singleton]
            split_ifs <;> rfl
      · rintro _ _ ⟨⟩

theorem WriterInv.init :
    WriterInv (.init (zeroed N size)) .init none ([] : List (Payload size)) where
  written := by
    intro l t m hm
    obtain ⟨rfl, rfl⟩ : t = 0 ∧ m = ⟨0, ⊥⟩ := by
      cases t with
      | zero => exact ⟨rfl, (Option.some.inj hm).symm⟩
      | succ t => simp [WeakMemory.History.init] at hm
    cases l <;> simp [Good]
  upToDate := .init _
  length := by
    intro l
    cases l <;> rfl
  registers := by simp

end

end XmBase.Concurrency.WeakRing
