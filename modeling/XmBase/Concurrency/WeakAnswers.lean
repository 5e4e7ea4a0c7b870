import XmBase.Concurrency.WeakReads
/-!
# XmBase.Concurrency.WeakAnswers

**The ring under the memory orders of the source, over whole runs**: what `Load`,
`LoadBounded` and `Snapshot` deliver, and in which order a reader can see it.

Without sequential consistency a load has no place in one order of all accesses, so its
answer is measured against what its own thread knows: it is the newest value below some
cursor, and that cursor is never older than one the thread has heard of, by its own earlier
calls or by synchronizing with others.
-/

namespace XmBase.Concurrency.WeakRing

open Atomic (Access)
open WeakMemory (ThreadView Order perform)
open SeqlockRing (Loc Val StorePc ReadPc LoadResult BoundedFrame SnapshotFrame ReadCall)

variable {N size : Nat} [NeZero N] {ι : Type} [DecidableEq ι]
  {vs : List (Payload size)} {n n' i t : Nat} {view view' : ThreadView (Loc N size)}
  {pc : ReadPc} {m : WeakMemory.Message (Loc N size) UInt64}

/-! ### Whole runs

The parts put together: the writer's invariant, what each reader knows in its call, and what
each reader has heard. A step of the writer is a longer history for the readers; a step of a
reader touches its own part only. -/

/-- What a reader has heard of the cursor: never less than before, no more than the `n` stores
there are, and all of it in its view. -/
structure Heard (n : Nat) (view : ThreadView (Loc N size)) (seen : List Nat) : Prop where
  sorted : seen.Pairwise (· ≥ ·)
  le : ∀ x ∈ seen, x ≤ n ∧ x ≤ view.cur .writeCount

/-- The invariant of the system: the writing side, what each reader knows at its program
counter, and what each reader has heard between its calls. -/
structure World.Inv (w : World N size ι) : Prop where
  writer : WriterInv w.mem w.writerView w.writer w.published
  readers : ∀ r, ReaderInv (begun w.published w.writer) w.published (w.views r) (w.seen r)
    (w.readers r)
  heard : ∀ r, Heard w.published.length (w.views r) (w.seen r)

/-- The calls of `Store`, complete or not. -/
def World.Counted (w : World N size ι) : Prop :=
  w.calls = w.published.length + if w.writer.isSome then 1 else 0

section

variable {w w' : World N size ι} {l : Label size ι} {r : ι} {seen : List Nat}

theorem published_prefix_begun (published : List (Payload size))
    (writer : Option (Payload size × StorePc)) : published <+: begun published writer := by
  unfold begun
  split
  all_goals first | exact List.prefix_append _ _ | exact List.prefix_refl _

/-- The writer's step, as far as the readers can tell. The values with a store begun are
those before, or one more. -/
theorem begun_step (published : List (Payload size)) {mem mem' : WeakMemory.History (Val N size)}
    {v : Payload size} {pc : StorePc} {o : Order} {next : StorePc ⊕ Unit}
    (hp : perform o t mem view (SeqlockRing.store v pc) = some (mem', view', next)) :
    begun published (some (v, pc)) <+: begun (publish v published pc) (goOn v next) ∧
      published <+: publish v published pc ∧
      published.length + 1 =
        (publish v published pc).length + if (goOn v next).isSome then 1 else 0 := by
  cases pc with
  | loadCount =>
      obtain ⟨m, -, -, -, -, rfl⟩ := WeakMemory.perform_load hp
      exact ⟨List.prefix_refl _, List.prefix_refl _, rfl⟩
  | loadSeq idx =>
      obtain ⟨m, -, -, -, -, rfl⟩ := WeakMemory.perform_load hp
      exact ⟨List.prefix_refl _, List.prefix_refl _, rfl⟩
  | storeOdd idx s =>
      obtain ⟨-, -, rfl⟩ := WeakMemory.perform_store hp
      exact ⟨List.prefix_append _ _, List.prefix_refl _, rfl⟩
  | storeIndex idx s =>
      obtain ⟨-, -, rfl⟩ := WeakMemory.perform_store hp
      exact ⟨List.prefix_refl _, List.prefix_refl _, rfl⟩
  | copy idx s i =>
      simp only [SeqlockRing.store] at hp
      split at hp
      · obtain ⟨-, -, rfl⟩ := WeakMemory.perform_store hp
        exact ⟨List.prefix_refl _, List.prefix_refl _, rfl⟩
      · obtain ⟨-, -, rfl⟩ := WeakMemory.perform_store hp
        exact ⟨List.prefix_refl _, List.prefix_refl _, rfl⟩
  | storeCount idx =>
      obtain ⟨-, -, rfl⟩ := WeakMemory.perform_store hp
      exact ⟨List.prefix_refl _, List.prefix_append _ _, by simp [publish, goOn]⟩

omit [NeZero N] in
theorem Heard.mono (h : Heard n view seen) (hn : n ≤ n') (hv : view.Le view') :
    Heard n' view' seen :=
  ⟨h.sorted, fun x hx => ⟨(h.le x hx).1.trans hn, (h.le x hx).2.trans (hv.cur _)⟩⟩

omit [NeZero N] in
/-- Hearing of `x`, which is not less than before. So the newest it has heard of is in
front, and the list stays sorted. -/
theorem Heard.push {x : Nat} (h : Heard n view seen) (hx : ∀ y ∈ seen, y ≤ x) (hv : view.Le view')
    (hn : x ≤ n) (hle : x ≤ view'.cur .writeCount) : Heard n view' (x :: seen) := by
  refine ⟨List.pairwise_cons.mpr ⟨fun y hy => hx y hy, h.sorted⟩, ?_⟩
  intro y hy
  rcases List.mem_cons.mp hy with rfl | hy
  · exact ⟨hn, hle⟩
  · exact (h.mono le_rfl hv).le y hy

theorem WriterInv.call {mem : WeakMemory.History (Val N size)} {published : List (Payload size)}
    (hi : WriterInv mem view none published) (v : Payload size) :
    WriterInv mem view (some (v, .loadCount)) published where
  written := hi.written
  upToDate := hi.upToDate
  length := by
    intro l
    rw [hi.length]
    cases l <;> rfl
  registers := by
    rintro _ _ ⟨⟩
    trivial

/-- Between two calls a reader holds its last answer, whatever it hears. -/
theorem ReaderInv.between {published : List (Payload size)} {seen' : List Nat} {rd : Reader size}
    (h : ReaderInv vs published view seen rd) (hrd : rd.inCall = false) :
    ReaderInv vs published view' seen' rd := by
  cases rd with
  | load | loadBounded | snapshot => cases hrd
  | _ => exact h

theorem ReaderInv.atEntry {published : List (Payload size)} (hh : Heard n view seen)
    (rc : ReadCall size) :
    ReaderInv vs published view seen (.atEntry (view.cur .writeCount) rc) := by
  have hpend : Pending view seen ⟨view.cur .writeCount, 0⟩ .capture :=
    ⟨fun x hx => (hh.le x hx).2, le_rfl, by simp [ReadPc.cursor?]⟩
  cases rc with
  | load out => exact ⟨trivial, hpend⟩
  | loadBounded out maxRetries => exact ⟨trivial, hpend⟩
  | snapshot out k => exact ⟨trivial, hpend, by simp, by simp [ReadPc.cursor?]⟩

/-- What a load finds. Every write is good, by the writer's invariant. -/
theorem WriterInv.look {mem : WeakMemory.History (Val N size)} {writerView : ThreadView (Loc N size)}
    {writer : Option (Payload size × StorePc)} {published : List (Payload size)}
    (hi : WriterInv mem writerView writer published) (hm : (mem (readLoc i pc))[t]? = some m)
    (hle : view.start (readOrder size pc) (readLoc i pc) ≤ t) :
    Look (begun published writer) published.length view i pc t m := by
  refine ⟨hi.written _ _ _ hm, hle, ?_⟩
  rintro rfl
  have hlt := (List.getElem?_eq_some_iff.mp hm).1
  have hzero : underWay published.length writer (.writeCount : Loc N size) = 0 := by
    unfold underWay
    split <;> first | rfl | contradiction
  rw [hi.length, readLoc, finished, hzero] at hlt
  exact Nat.lt_succ_iff.mp hlt

omit [NeZero N] in
theorem returned?_afterLoad {out : Payload size} {log log' : Log} {x : ReadPc ⊕ (Bool × Payload size)}
    (h : (Reader.afterLoad out log x).returned? = some log') : log' = log := by
  cases x with
  | inl pc => cases h
  | inr a => exact (Option.some.inj h).symm

omit [NeZero N] in
theorem returned?_afterLoadBounded {out : Payload size} {maxRetries : UInt32} {log log' : Log}
    {x : BoundedFrame ⊕ (LoadResult × Payload size)}
    (h : (Reader.afterLoadBounded out maxRetries log x).returned? = some log') : log' = log := by
  cases x with
  | inl frame => cases h
  | inr a => exact (Option.some.inj h).symm

omit [NeZero N] in
theorem returned?_afterSnapshot {out : Nat → Payload size} {k : Nat} {log log' : Log}
    {x : SnapshotFrame size ⊕ (Nat × (Nat → Payload size))}
    (h : (Reader.afterSnapshot out k log x).returned? = some log') : log' = log := by
  cases x with
  | inl frame => cases h
  | inr a => exact (Option.some.inj h).symm

/-- **A step of a reader.** -/
theorem ReaderInv.next {mem mem' : WeakMemory.History (Val N size)}
    {writerView : ThreadView (Loc N size)} {writer : Option (Payload size × StorePc)}
    {published : List (Payload size)} {rd rd' : Reader size} {o : Order}
    {a : Access (Val N size) (Reader size)}
    (h : ReaderInv (begun published writer) published view seen rd)
    (hi : WriterInv mem writerView writer published) (ha : rd.access t = some (o, a))
    (hp : perform o t mem view a = some (mem', view', rd')) :
    mem' = mem ∧ view.Le view' ∧ ReaderInv (begun published writer) published view' seen rd' ∧
      ∀ log, rd'.returned? = some log →
        (∀ x ∈ seen, x ≤ log.floor) ∧ log.captured ≤ view'.cur .writeCount := by
  have hpre := published_prefix_begun published writer
  cases rd with
  | load out pc log =>
      obtain ⟨rfl, rfl⟩ := Prod.mk.inj (Option.some.inj ha)
      obtain ⟨m, hm, hle, rfl, rfl, hrd⟩ := WeakMemory.perform_of_load
        (by rw [WeakMemory.loadLoc?_map, loadLoc?_load]) hp
      have hrd := hrd (holding m) rfl
      rw [Access.exec_map, SeqlockRing.load_exec] at hrd
      subst hrd
      refine ⟨rfl, le_behind _ _ _ _ _, h.load_next (hi.look hm hle) hpre, ?_⟩
      intro log' hlog
      obtain rfl := returned?_afterLoad hlog
      exact h.2.heard
  | loadBounded out maxRetries frame log =>
      obtain ⟨attempt, pc⟩ := frame
      obtain ⟨rfl, rfl⟩ := Prod.mk.inj (Option.some.inj ha)
      obtain ⟨m, hm, hle, rfl, rfl, hrd⟩ := WeakMemory.perform_of_load
        (by rw [WeakMemory.loadLoc?_map, loadLoc?_loadBounded]) hp
      have hrd := hrd (holding m) rfl
      rw [Access.exec_map, SeqlockRing.loadBounded_exec] at hrd
      subst hrd
      refine ⟨rfl, le_behind _ _ _ _ _, h.loadBounded_next (hi.look hm hle) hpre, ?_⟩
      intro log' hlog
      obtain rfl := returned?_afterLoadBounded hlog
      exact h.2.heard
  | snapshot out k frame log =>
      obtain ⟨taken, buf, pc⟩ := frame
      obtain ⟨rfl, rfl⟩ := Prod.mk.inj (Option.some.inj ha)
      obtain ⟨m, hm, hle, rfl, rfl, hrd⟩ := WeakMemory.perform_of_load
        (by rw [WeakMemory.loadLoc?_map, loadLoc?_snapshot]) hp
      have hrd := hrd (holding m) rfl
      rw [Access.exec_map, SeqlockRing.snapshot_exec] at hrd
      subst hrd
      refine ⟨rfl, le_behind _ _ _ _ _, h.snapshot_next (hi.look hm hle) hpre, ?_⟩
      intro log' hlog
      obtain rfl := returned?_afterSnapshot hlog
      exact h.2.1.heard
  | _ => cases ha

theorem ReaderInv.returned {published : List (Payload size)} {rd : Reader size} {log : Log}
    (h : ReaderInv vs published view seen rd) (hlog : rd.returned? = some log) :
    Returned published.length log := by
  cases rd with
  | loaded | loadedBounded | snapped =>
      obtain rfl := Option.some.inj hlog
      exact h.1
  | _ => cases hlog

omit [NeZero N] in
theorem inCall_of_returned? {rd : Reader size} {log : Log} (h : rd.returned? = some log) :
    rd.inCall = false := by
  cases rd with
  | load | loadBounded | snapshot => cases h
  | _ => rfl

/-- The writer knows its own stores. -/
theorem WriterInv.le_cur_writeCount {mem : WeakMemory.History (Val N size)}
    {writer : Option (Payload size × StorePc)} {published : List (Payload size)}
    (hi : WriterInv mem view writer published) : published.length ≤ view.cur .writeCount :=
  (Nat.le_add_right _ _).trans (hi.le_cur .writeCount)

omit [NeZero N] in
theorem Heard.headD_le (h : Heard n view seen) :
    seen.headD 0 ≤ n ∧ seen.headD 0 ≤ view.cur .writeCount := by
  cases seen with
  | nil => exact ⟨Nat.zero_le _, Nat.zero_le _⟩
  | cons x seen => exact h.le x List.mem_cons_self

omit [NeZero N] in
theorem Heard.le_headD (h : Heard n view seen) : ∀ x ∈ seen, x ≤ seen.headD 0 := by
  cases seen with
  | nil => simp
  | cons y seen =>
      intro x hx
      rcases List.mem_cons.mp hx with rfl | hx
      · exact le_rfl
      · exact (List.pairwise_cons.mp h.sorted).1 x hx

/-- A step of one reader, on its own part of the state. -/
theorem World.Inv.update (hi : w.Inv) {rd : Reader size} {v : ThreadView (Loc N size)}
    (hrd : ReaderInv (begun w.published w.writer) w.published v seen rd)
    (hh : Heard w.published.length v seen) :
    World.Inv { w with
      readers := Function.update w.readers r rd
      views := Function.update w.views r v
      seen := Function.update w.seen r seen } where
  writer := hi.writer
  readers := by
    intro r'
    by_cases hr : r' = r
    · subst hr
      simpa using hrd
    · simpa [hr] using hi.readers r'
  heard := by
    intro r'
    by_cases hr : r' = r
    · subst hr
      simpa using hh
    · simpa [hr] using hi.heard r'

/-- **A step of the system keeps the invariant.** A step of the writer is a longer history
for every reader, and a step of a reader its own affair. -/
theorem World.Inv.step (hi : w.Inv) (hcount : w.Counted) (hcalls : w'.calls < 2 ^ 63)
    (h : w.step l = some w') : w'.Inv := by
  cases l with
  | callStore value =>
      cases hwr : w.writer with
      | some p => simp [World.step, hwr] at h
      | none =>
          simp only [World.step, hwr] at h
          obtain rfl := Option.some.inj h
          have hw := hi.writer
          have hr := hi.readers
          rw [hwr] at hw hr
          exact ⟨hw.call value, hr, hi.heard⟩
  | write t =>
      cases hwr : w.writer with
      | none => simp [World.step, hwr] at h
      | some p =>
          obtain ⟨v, pc⟩ := p
          simp only [World.step, hwr] at h
          obtain ⟨⟨mem', view', next⟩, hp, rfl⟩ := Option.map_eq_some_iff.mp h
          have hw := hi.writer
          rw [hwr] at hw
          have hn : w.published.length + 1 < 2 ^ 63 := by
            have hc : w.calls = w.published.length + 1 := by
              rw [hcount, hwr]
              rfl
            have : w.calls < 2 ^ 63 := hcalls
            omega
          obtain ⟨hvs, hpub, -⟩ := begun_step w.published hp
          refine ⟨hw.step hn hp, ?_, fun r => (hi.heard r).mono hpub.length_le (.refl _)⟩
          intro r
          have hr := hi.readers r
          rw [hwr] at hr
          exact hr.mono hvs hpub
  | call r c =>
      simp only [World.step] at h
      split_ifs at h with hin
      obtain rfl := Option.some.inj h
      simpa using hi.update (r := r) (.atEntry (hi.heard r) c) (hi.heard r)
  | read r t =>
      cases hacc : (w.readers r).access (N := N) t with
      | none => simp [World.step, hacc] at h
      | some p =>
          obtain ⟨o, a⟩ := p
          simp only [World.step, hacc] at h
          obtain ⟨⟨mem', view', rd'⟩, hp, rfl⟩ := Option.map_eq_some_iff.mp h
          obtain ⟨rfl, hv, hrd, hret⟩ := (hi.readers r).next hi.writer hacc hp
          cases hlog : rd'.returned? with
          | none => simpa using hi.update (r := r) hrd ((hi.heard r).mono le_rfl hv)
          | some log =>
              obtain ⟨hseen, hle⟩ := hret log hlog
              obtain ⟨hfloor, hn⟩ := hrd.returned hlog
              refine hi.update (hrd.between (inCall_of_returned? hlog)) ?_
              exact (hi.heard r).push (fun x hx => (hseen x hx).trans hfloor) hv hn hle
  | syncWriter r =>
      simp only [World.step] at h
      split_ifs at h with hin
      obtain rfl := Option.some.inj h
      have hle : w.published.length ≤ ((w.views r).join w.writerView.cur).cur .writeCount :=
        hi.writer.le_cur_writeCount.trans le_sup_right
      have hh := (hi.heard r).push (fun x hx => ((hi.heard r).le x hx).1)
        (ThreadView.le_join _ w.writerView.cur) le_rfl hle
      simpa using hi.update (r := r)
        ((hi.readers r).between (Bool.eq_false_of_not_eq_true hin)) hh
  | syncReader r s =>
      simp only [World.step] at h
      split_ifs at h with hin
      obtain rfl := Option.some.inj h
      have hr := (hi.heard r).headD_le
      have hs := (hi.heard s).headD_le
      have hh : Heard w.published.length ((w.views r).join (w.views s).cur)
          (max ((w.seen r).headD 0) ((w.seen s).headD 0) :: w.seen r) :=
        (hi.heard r).push (fun x hx => ((hi.heard r).le_headD x hx).trans (le_max_left _ _))
          (ThreadView.le_join _ _) (max_le hr.1 hs.1) (max_le_max hr.2 hs.2)
      simpa using hi.update (r := r)
        ((hi.readers r).between (Bool.eq_false_of_not_eq_true hin)) hh

theorem World.step_counted (hc : w.Counted) (h : w.step l = some w') :
    w'.Counted ∧ w.calls ≤ w'.calls := by
  unfold World.Counted at hc ⊢
  cases l with
  | callStore value =>
      cases hwr : w.writer with
      | some p => simp [World.step, hwr] at h
      | none =>
          simp only [World.step, hwr] at h
          obtain rfl := Option.some.inj h
          simpa [hwr] using hc
  | write t =>
      cases hwr : w.writer with
      | none => simp [World.step, hwr] at h
      | some p =>
          obtain ⟨v, pc⟩ := p
          simp only [World.step, hwr] at h
          obtain ⟨⟨mem', view', next⟩, hp, rfl⟩ := Option.map_eq_some_iff.mp h
          obtain ⟨-, -, hlen⟩ := begun_step w.published hp
          rw [hwr] at hc
          exact ⟨hc.trans hlen, le_rfl⟩
  | call r c =>
      simp only [World.step] at h
      split_ifs at h
      obtain rfl := Option.some.inj h
      exact ⟨hc, le_rfl⟩
  | read r t =>
      cases hacc : (w.readers r).access (N := N) t with
      | none => simp [World.step, hacc] at h
      | some p =>
          simp only [World.step, hacc] at h
          obtain ⟨⟨mem', view', rd'⟩, hp, rfl⟩ := Option.map_eq_some_iff.mp h
          exact ⟨hc, le_rfl⟩
  | syncWriter r | syncReader r =>
      simp only [World.step] at h
      split_ifs at h
      obtain rfl := Option.some.inj h
      exact ⟨hc, le_rfl⟩

omit [DecidableEq ι] in
theorem World.init_inv : (World.init N size ι).Inv where
  writer := .init
  readers := fun _ => trivial
  heard := fun _ => ⟨.nil, by simp [World.init]⟩

/-- **The invariant holds in every run**, as long as the calls of `Store` fit their words. -/
theorem World.run_inv {ls : List (Label size ι)} (h : World.run (N := N) ls = some w)
    (hcalls : w.calls < 2 ^ 63) : w.Inv := by
  have hboth : w.Counted ∧ (w.calls < 2 ^ 63 → w.Inv) := by
    refine Run.exec_invariant (I := fun w : World N size ι => w.Counted ∧ (w.calls < 2 ^ 63 → w.Inv))
      ?_ ⟨by simp [World.Counted, World.init], fun _ => World.init_inv⟩ h
    rintro w l w' ⟨hc, hi⟩ hstep
    obtain ⟨hc', hle⟩ := World.step_counted hc hstep
    exact ⟨hc', fun hcalls => (hi (hle.trans_lt hcalls)).step hc hcalls hstep⟩
  exact hboth.2 hcalls

/-! ### The answers

What a call answers, measured against its thread: `log.floor` is what the thread knew when
it made the call, and `log.captured` the cursor the answer is for. Every statement needs
fewer than `2 ^ 63` stores, since sequence and cursor are 64-bit words and the sequence
moves twice a store. -/

/-- A returned `Load` or `LoadBounded` delivers the newest value below the cursor it captured,
which is not older than what its thread knew of when it made the call. It reports an empty
ring only for a cursor of zero, and `out` is left alone whenever no value is delivered. -/
def Reader.Latest (published : List (Payload size)) : Reader size → Prop
  | .loaded _ log true out' | .loadedBounded _ log .kValue out' =>
      log.floor ≤ log.captured ∧ 0 < log.captured ∧ published[log.captured - 1]? = some out'
  | .loaded out log false out' | .loadedBounded out log .kEmpty out' =>
      log.floor = 0 ∧ log.captured = 0 ∧ out' = out
  | .loadedBounded out _ .kStalled out' => out' = out
  | _ => True

/-- **Loads are never torn, and never older than what the reader knows**, with the memory
orders of the source. What is delivered is the newest value below a cursor, and that cursor
is not older than what the reader's thread knew when it made the call. "Empty" is only
answered to a thread that has heard of nothing. -/
theorem load_latest {ls : List (Label size ι)} (hrun : World.run (N := N) ls = some w)
    (hcalls : w.calls < 2 ^ 63) (r : ι) : (w.readers r).Latest w.published := by
  have h := (World.run_inv hrun hcalls).readers r
  generalize w.readers r = rd at h
  cases rd with
  | loaded out log found out' =>
      obtain ⟨hret, hans⟩ := h
      cases found with
      | true => exact ⟨hret.floor_le, hans⟩
      | false => exact ⟨Nat.le_zero.mp (hans.1 ▸ hret.floor_le), hans⟩
  | loadedBounded out log result out' =>
      obtain ⟨hret, hans⟩ := h
      cases result with
      | kValue => exact ⟨hret.floor_le, hans⟩
      | kEmpty => exact ⟨Nat.le_zero.mp (hans.1 ▸ hret.floor_le), hans⟩
      | kStalled => exact hans
  | _ => trivial

/-- The writer's accesses in a store to position `p` of a ring of depth two. -/
def storing (p : Nat) (v : Payload 1) : List (Label 1 Bool) :=
  [.callStore v, .write p, .write (p / 2 * 2)] ++ List.replicate 5 (.write 0)

/-- One reader loads the second value. The other has not heard of it and loads the first,
from a cell that is complete. -/
def staleLoad : List (Label 1 Bool) :=
  [storing 0 #v[1], storing 1 #v[2],
   [.call true (.load #v[0]), .read true 2, .read true 2, .read true 1, .read true 1, .read true 2,
    .call false (.load #v[0]), .read false 1, .read false 2, .read false 1, .read false 1,
    .read false 2]].flatten

/-- The values the last call of a reader delivered. -/
def Reader.delivered : Reader size → List (Payload size)
  | .loaded _ _ true out' => [out']
  | .loadedBounded _ _ .kValue out' => [out']
  | .snapped _ _ _ taken out' => (List.range taken).map out'
  | _ => []

theorem load_latest_staleLoad : ∃ w : World 2 1 Bool, World.run staleLoad = some w ∧
    (w.readers true).delivered = [#v[2]] ∧ (w.readers false).delivered = [#v[1]] ∧
    (w.readers false).Latest w.published := by
  have hex : ∃ w : World 2 1 Bool, World.run staleLoad = some w ∧ w.calls < 2 ^ 63 ∧
      (w.readers true).delivered = [#v[2]] ∧ (w.readers false).delivered = [#v[1]] :=
    Run.exists_exec (by decide +kernel)
  obtain ⟨w, hrun, hcalls, htrue, hfalse⟩ := hex
  exact ⟨w, hrun, htrue, hfalse, load_latest hrun hcalls false⟩

/-- A returned `Snapshot` holds the newest values below the cursor it captured, newest first
and without gaps, and leaves the rest of `out` alone. It misses at most the entries that the
`stores` begun so far have overwritten. -/
def Reader.Newest (N stores : Nat) (published : List (Payload size)) : Reader size → Prop
  | .snapped out k log taken out' => log.floor ≤ log.captured ∧
      log.captured ≤ published.length ∧ taken ≤ min k (min log.captured N) ∧
      min k (min log.captured (N - (stores - log.captured))) ≤ taken ∧
      (∀ i < taken, published[log.captured - 1 - i]? = some (out' i)) ∧
      ∀ i, taken ≤ i → out' i = out i
  | _ => True

/-- **Snapshots are consecutive**, with the memory orders of the source. The walk is
measured against its own capture, so a stale one gives an older window, but never a window
with holes or with values of two laps. -/
theorem snapshot_newest {ls : List (Label size ι)} (hrun : World.run (N := N) ls = some w)
    (hcalls : w.calls < 2 ^ 63) (r : ι) :
    (w.readers r).Newest N (begun w.published w.writer).length w.published := by
  have h := (World.run_inv hrun hcalls).readers r
  generalize w.readers r = rd at h
  cases rd with
  | snapped out k log taken out' =>
      obtain ⟨hret, hle, hge, hent⟩ := h
      exact ⟨hret.floor_le, hret.le, hle, hge, hent.newest, hent.rest⟩
  | _ => trivial

/-- A snapshot of two, whose second entry the third store has begun to overwrite when its
words are copied. -/
def overtakenSnapshot : List (Label 1 Bool) :=
  [storing 0 #v[1], storing 1 #v[2],
   [.call true (.snapshot (fun _ => #v[0]) 2), .read true 2, .read true 2, .read true 1,
    .read true 1, .read true 2, .read true 2],
   (storing 2 #v[3]).take 6, [.read true 1, .read true 2, .read true 3]].flatten

theorem snapshot_newest_overtakenSnapshot : ∃ w : World 2 1 Bool,
    World.run overtakenSnapshot = some w ∧ (w.readers true).delivered = [#v[2]] ∧
    (w.readers true).Newest 2 (begun w.published w.writer).length w.published := by
  have hex : ∃ w : World 2 1 Bool, World.run overtakenSnapshot = some w ∧ w.calls < 2 ^ 63 ∧
      (w.readers true).delivered = [#v[2]] := Run.exists_exec (by decide +kernel)
  obtain ⟨w, hrun, hcalls, htrue⟩ := hex
  exact ⟨w, hrun, htrue, snapshot_newest hrun hcalls true⟩

/-- **No reader goes back**: not behind an earlier read of its own, not behind what was
stored when it synchronized with the writer, and not behind what a reader it synchronized
with had seen. -/
theorem seen_sorted {ls : List (Label size ι)} (hrun : World.run (N := N) ls = some w)
    (hcalls : w.calls < 2 ^ 63) (r : ι) :
    (w.seen r).Pairwise (· ≥ ·) ∧ ∀ x ∈ w.seen r, x ≤ w.published.length :=
  have h := (World.run_inv hrun hcalls).heard r
  ⟨h.sorted, fun x hx => (h.le x hx).1⟩

/-- The stale reader again, which hears of the second value from the other reader before it
loads for a second time. -/
def toldReader : List (Label 1 Bool) :=
  staleLoad ++ [.syncReader false true, .call false (.load #v[0]), .read false 2, .read false 2,
    .read false 1, .read false 1, .read false 2]

theorem seen_sorted_toldReader : ∃ w : World 2 1 Bool, World.run toldReader = some w ∧
    w.seen false = [2, 2, 1] ∧ (w.seen false).Pairwise (· ≥ ·) := by
  have hex : ∃ w : World 2 1 Bool, World.run toldReader = some w ∧ w.calls < 2 ^ 63 ∧
      w.seen false = [2, 2, 1] := Run.exists_exec (by decide +kernel)
  obtain ⟨w, hrun, hcalls, hseen⟩ := hex
  exact ⟨w, hrun, hseen, (seen_sorted hrun hcalls false).1⟩

end

end XmBase.Concurrency.WeakRing
