import XmBase.Concurrency.RingAnswers
/-!
# XmBase.Concurrency.RingCrash

**Runs with kills and repairs, and the readers that live through them.**

`RepairAfterWriterCrash` resets an odd sequence to zero. To a reader that value
has a meaning of its own twice over:

* the stores that follow count up from zero again, so a reader paused inside a
  copy of that cell can find the sequence it started from and accept words of
  different stores (`SpansReset`). It is the only way to deliver a value that
  was never published (`delivered_mem_published`, `tornRun`);
* zero also says "never written", so a reader paused between its capture and
  its first load of the sequence, and lapped meanwhile, answers that nothing was
  ever published. It is the only way to that answer
  (`nonempty_iff_no_retracted_read`, `emptyRun`).
-/

namespace XmBase.Concurrency.SeqlockRing

variable {N size : Nat} [NeZero N] {ι : Type} [DecidableEq ι]
  {m m' : Mem N size} {h h' : History N size} {wr wr' : Writer size}

/-! ### Delivered values

The invariant is that of `RingAnswers`; here it is only read off, with the one condition it
has. The run that violates it follows, and next to it one in which the same read happens to
start over in time. -/

/-- **Delivered values were published**, each by one completed store, in every run without a
read that spans a reset. Kills and repairs may be anywhere else: a read that a reset falls
into is the only one whose second load can find the sequence of its first load again by
accident. -/
theorem delivered_mem_published {w : World N size ι} {ls : List (Label size ι)}
    (hrun : World.run ls = some w)
    (hspan : Run.Steps World.step NoReadSpansReset (World.init N size ι) ls)
    (hcalls : w.hist.calls < 2 ^ 63) (r : ι) :
    ∀ v ∈ (w.readers r).delivered, v ∈ w.hist.published :=
  ((World.run_answers hrun hspan hcalls).2 r).delivered_mem

/-- The slot: a load copies half of the second value, the third store is killed
half way and repaired, and the load, which sees the fourth store's sequence,
starts over. -/
def repairedRun : List (Label 9 Unit) :=
  [stores (.replicate 9 1) 8, stores (.replicate 9 2) 8, calls () (.load (.replicate 9 0)) 4,
   stores (.replicate 9 3) 5, killedAndRepaired 3, stores (.replicate 9 4) 8, reads () 8].flatten

theorem delivered_mem_published_repairedRun : ∃ w : World 1 9 Unit,
    World.run repairedRun = some w ∧ (w.readers ()).delivered = [.replicate 9 4] ∧
    ∀ v ∈ (w.readers ()).delivered, v ∈ w.hist.published := by
  have hex : ∃ w : World 1 9 Unit, World.run repairedRun = some w ∧
      w.hist.calls < 2 ^ 63 ∧ (w.readers ()).delivered = [.replicate 9 4] :=
    Run.exists_exec (by decide +kernel)
  obtain ⟨w, hrun, hcalls, hdel⟩ := hex
  exact ⟨w, hrun, hdel, delivered_mem_published hrun (by decide +kernel) hcalls ()⟩

/-- The slot again: a load copies one of two words of the first value; the second
store is killed with the sequence odd and repaired; the third brings the sequence
back to where the load saw it. -/
def tornRun : List (Label 9 Unit) :=
  [stores (.replicate 9 1) 8, calls () (.load (.replicate 9 0)) 4, stores (.replicate 9 2) 3,
   killedAndRepaired 3, stores (.replicate 9 3) 8, reads () 2].flatten

theorem tornRun_delivers_unpublished : ∃ w : World 1 9 Unit,
    World.run tornRun = some w ∧ w.hist.calls < 2 ^ 63 ∧
    ∃ v ∈ (w.readers ()).delivered, v ∉ w.hist.published := by
  -- the first word is the first store's, the last byte the third's
  let torn : Payload 9 := #v[1, 1, 1, 1, 1, 1, 1, 1, 3]
  have hex : ∃ w : World 1 9 Unit, World.run tornRun = some w ∧
      w.hist.calls < 2 ^ 63 ∧ torn ∈ (w.readers ()).delivered ∧ torn ∉ w.hist.published :=
    Run.exists_exec (by decide +kernel)
  obtain ⟨w, hrun, hcalls, hdel, hpub⟩ := hex
  exact ⟨w, hrun, hcalls, torn, hdel, hpub⟩

/-! ### Empty answers

Which readers can take a reset for an empty ring? A retracted cell is the in-flight one, so
its position was published a lap ago at least: the reader has slept since its capture. The
condition is therefore on the access that loads the first sequence, and it is decided by the
history, not by the value found. -/

/-- The last call did not answer "nothing was ever published" after starting
with something published. -/
def Reader.Nonempty : Reader size → Prop
  | .loaded _ log false _ => log.start = 0
  | .loadedBounded _ log .kEmpty _ => log.start = 0
  | _ => True

instance (rd : Reader size) : Decidable rd.Nonempty :=
  match rd with
  | .loaded _ log false _ => inferInstanceAs (Decidable (log.start = 0))
  | .loadedBounded _ log .kEmpty _ => inferInstanceAs (Decidable (log.start = 0))
  | .idle | .load .. | .loadBounded .. | .snapshot .. | .loaded _ _ true _
  | .loadedBounded _ _ .kValue _ | .loadedBounded _ _ .kStalled _ | .snapped .. => .isTrue trivial

/-- A call that started with something published is about to load, for the first
time, the sequence of a retracted cell. -/
def RetractedAt (h : History N size) (log : CallLog) : ReadPc → Prop
  | .first c => 0 < log.start ∧ h.retracted (readCell c 0) = true
  | _ => False

/-- `RetractedAt`, for a reader inside a read-latest call. -/
def Reader.ReadsRetracted (h : History N size) : Reader size → Prop
  | .load _ pc log => RetractedAt h log pc
  | .loadBounded _ _ frame log => RetractedAt h log frame.pc
  | _ => False

/-- The step condition under which no published history reads as empty. It depends on the
state before the step and on who moves, not on what is loaded. -/
def NoRetractedRead (w : World N size ι) : Label size ι → Prop
  | .read r => ¬ (w.readers r).ReadsRetracted w.hist
  | _ => True

instance (h : History N size) (log : CallLog) (pc : ReadPc) : Decidable (RetractedAt h log pc) :=
  match pc with
  | .first c => inferInstanceAs (Decidable (0 < log.start ∧ h.retracted (readCell c 0) = true))
  | .capture | .index .. | .copy .. => .isFalse id

instance (h : History N size) (rd : Reader size) : Decidable (rd.ReadsRetracted h) :=
  match rd with
  | .load _ pc log => inferInstanceAs (Decidable (RetractedAt h log pc))
  | .loadBounded _ _ frame log => inferInstanceAs (Decidable (RetractedAt h log frame.pc))
  | .idle | .snapshot .. | .loaded .. | .loadedBounded .. | .snapped .. => .isFalse id

instance (w : World N size ι) (l : Label size ι) : Decidable (NoRetractedRead w l) :=
  match l with
  | .read r => inferInstanceAs (Decidable (¬ (w.readers r).ReadsRetracted w.hist))
  | .callStore _ | .write | .kill | .callRepair | .call .. => .isTrue trivial

/-- What a read-latest call knows of its cursor in every run, kills and resets included. It
needs no window and no bound on the laps: a cursor, once captured, stays a count. -/
structure Cursored (h : History N size) (log : CallLog) (pc : ReadPc) : Prop where
  start_le : log.start ≤ h.published.length
  cursor : ∀ {c}, pc.cursor? = some c → 0 < c.toNat ∧ c.toNat ≤ h.published.length

/-- `Cursored`, for a reader inside a read-latest call. -/
def Reader.Cursored (h : History N size) : Reader size → Prop
  | .load _ pc log => SeqlockRing.Cursored h log pc
  | .loadBounded _ _ frame log => SeqlockRing.Cursored h log frame.pc
  | _ => True

omit [NeZero N] in
theorem Cursored.capture {log : CallLog} (hstart : log.start ≤ h.published.length) :
    Cursored h log .capture :=
  ⟨hstart, by simp [ReadPc.cursor?]⟩

/-- The call goes on inside its iteration. Its capture is the same, so nothing about it has
changed. -/
theorem Cursored.progress {log : CallLog} {i : Nat} {pc pc' : ReadPc} (hc : Cursored h log pc)
    (ho : observe m i pc = .progress pc') : Cursored h (log.note m h i pc) pc' := by
  obtain ⟨hcur, -⟩ := observe_progress_cursor ho
  exact ⟨by rw [CallLog.note_start]; exact hc.start_le, fun h => hc.cursor (by rw [← hcur, h])⟩

/-- A captured cursor is zero only for a call that started with nothing published. -/
theorem Cursored.captured {log : CallLog} {i : Nat} (hc : Cursored h log .capture)
    (ho : Outside m h.published) :
    (m .writeCount = 0 → log.start = 0) ∧
    (m .writeCount ≠ 0 → Cursored h (log.note m h i .capture) (.first (m .writeCount))) := by
  have hcount := ho.count
  have hle := hc.start_le
  constructor
  · intro h0
    rw [h0, UInt64.toNat_zero] at hcount
    omega
  · intro h0
    refine ⟨hle, ?_⟩
    intro c hcur
    obtain rfl := Option.some.inj hcur
    exact ⟨(Word.ne_zero_iff _).mp h0, hcount.le⟩

/-- The first load of a sequence finds zero exactly in a retracted cell. -/
theorem Cursored.retractedAt_iff {log : CallLog} {pc : ReadPc} (hc : Cursored h log pc)
    (hi : Inv m h wr) : RetractedAt h log pc ↔ 0 < log.start ∧ observe m 0 pc = .zero := by
  rw [observe_zero]
  cases pc with
  | first c =>
      simp only [RetractedAt, ReadPc.first.injEq, exists_eq_left', hi.zero_readCell (hc.cursor rfl)]
  | _ => simp [RetractedAt]

/-- `Load` answers "empty" after a start with something published exactly by
reading a retracted cell. -/
theorem Reader.Cursored.next_load {out : Payload size} {pc : ReadPc} {log : CallLog}
    {rd' : Reader size} (hc : SeqlockRing.Cursored h log pc) (hi : Inv m h wr)
    (hnext : (Reader.load out pc log).next m h = some rd') :
    rd'.Cursored h ∧ (rd'.Nonempty ↔ ¬ RetractedAt h log pc) := by
  have hstart : (log.note m h 0 pc).start ≤ h.published.length := by
    rw [CallLog.note_start]; exact hc.start_le
  rw [hc.retractedAt_iff hi]
  obtain rfl := Option.some.inj hnext
  cases hobs : observe m 0 pc with
  | captured c =>
      obtain ⟨rfl, rfl⟩ := observe_captured hobs
      obtain ⟨hzero, hpos⟩ := hc.captured (i := 0) hi.outside
      by_cases h0 : m .writeCount = 0
      · simp only [loadOn, if_pos h0]
        exact ⟨trivial, by simp, fun _ => hzero h0⟩
      · simp only [loadOn, if_neg h0]
        exact ⟨hpos h0, by simp, fun _ => trivial⟩
  | zero => exact ⟨trivial, by simp [loadOn, Reader.Nonempty]⟩
  | odd => exact ⟨.capture hstart, by simp [loadOn, Reader.Nonempty]⟩
  | invalid => exact ⟨.capture hstart, by simp [loadOn, Reader.Nonempty]⟩
  | progress pc' => exact ⟨hc.progress hobs, by simp [loadOn, Reader.Nonempty]⟩
  | valid c staged => exact ⟨trivial, by simp [loadOn, Reader.Nonempty]⟩

omit [NeZero N] in
/-- A failed attempt of `LoadBounded` is no empty answer. -/
theorem Reader.Cursored.boundedRetry (out : Payload size) (maxRetries attempt : UInt32)
    {log : CallLog} (hstart : log.start ≤ h.published.length) :
    let rd' : Reader size := match SeqlockRing.boundedRetry out maxRetries attempt with
      | .inl frame' => .loadBounded out maxRetries frame' log
      | .inr (result, out') => .loadedBounded out log result out'
    rd'.Cursored h ∧ rd'.Nonempty := by
  unfold SeqlockRing.boundedRetry
  split_ifs
  · exact ⟨.capture hstart, trivial⟩
  · exact ⟨trivial, trivial⟩

/-- The same for `LoadBounded`. -/
theorem Reader.Cursored.next_loadBounded {out : Payload size} {maxRetries attempt : UInt32}
    {pc : ReadPc} {log : CallLog} {rd' : Reader size} (hc : SeqlockRing.Cursored h log pc)
    (hi : Inv m h wr)
    (hnext : (Reader.loadBounded out maxRetries ⟨attempt, pc⟩ log).next m h = some rd') :
    rd'.Cursored h ∧ (rd'.Nonempty ↔ ¬ RetractedAt h log pc) := by
  have hstart : (log.note m h 0 pc).start ≤ h.published.length := by
    rw [CallLog.note_start]; exact hc.start_le
  rw [hc.retractedAt_iff hi]
  obtain rfl := Option.some.inj hnext
  cases hobs : observe m 0 pc with
  | captured c =>
      obtain ⟨rfl, rfl⟩ := observe_captured hobs
      obtain ⟨hzero, hpos⟩ := hc.captured (i := 0) hi.outside
      by_cases h0 : m .writeCount = 0
      · simp only [loadBoundedOn, if_pos h0]
        exact ⟨trivial, by simp, fun _ => hzero h0⟩
      · simp only [loadBoundedOn, if_neg h0]
        exact ⟨hpos h0, by simp, fun _ => trivial⟩
  | zero => exact ⟨trivial, by simp [loadBoundedOn, Reader.Nonempty]⟩
  | odd =>
      obtain ⟨h1, h2⟩ := Reader.Cursored.boundedRetry out maxRetries attempt hstart
      exact ⟨h1, by simp, fun _ => h2⟩
  | invalid =>
      obtain ⟨h1, h2⟩ := Reader.Cursored.boundedRetry out maxRetries attempt hstart
      exact ⟨h1, by simp, fun _ => h2⟩
  | progress pc' => exact ⟨hc.progress hobs, by simp [loadBoundedOn, Reader.Nonempty]⟩
  | valid c staged => exact ⟨trivial, by simp [loadBoundedOn, Reader.Nonempty]⟩

/-- **One reader step**: an empty answer is wrong exactly when the step read a
retracted cell. -/
theorem Reader.Cursored.next {rd rd' : Reader size} (hc : rd.Cursored h) (hi : Inv m h wr)
    (hnext : rd.next m h = some rd') :
    rd'.Cursored h ∧ (rd'.Nonempty ↔ ¬ rd.ReadsRetracted h) := by
  cases rd with
  | load out pc log => exact Reader.Cursored.next_load hc hi hnext
  | loadBounded out maxRetries frame log => exact Reader.Cursored.next_loadBounded hc hi hnext
  | snapshot out k frame log =>
      obtain ⟨taken, buf, pc⟩ := frame
      obtain rfl := Option.some.inj hnext
      cases snapshotOn N k taken buf (observe m taken pc) with
      | inl frame' => exact ⟨trivial, fun _ => id, fun _ => trivial⟩
      | inr res => exact ⟨trivial, fun _ => id, fun _ => trivial⟩
  | _ => simp [Reader.next] at hnext

/-! ### Whole runs

Along a run both directions are proved at once (`Run.along_iff_steps`): the property can
only be lost at a step that violates the condition, and is lost at each such step. -/

/-- The invariant behind empty answers. -/
def World.Cursored (w : World N size ι) : Prop :=
  Inv w.mem w.hist w.writer ∧ ∀ r, (w.readers r).Cursored w.hist

omit [DecidableEq ι] in
theorem World.init_cursored : (World.init N size ι).Cursored := ⟨Inv.init, fun _ => trivial⟩

omit [NeZero N] in
theorem Reader.Cursored.mono {rd : Reader size} (hc : rd.Cursored h)
    (hlen : h.published.length ≤ h'.published.length) : rd.Cursored h' := by
  have hmono : ∀ {log pc}, SeqlockRing.Cursored h log pc → SeqlockRing.Cursored h' log pc :=
    fun hc => ⟨hc.start_le.trans hlen, fun hcur => ⟨(hc.cursor hcur).1, (hc.cursor hcur).2.trans hlen⟩⟩
  cases rd with
  | load out pc log => exact hmono hc
  | loadBounded out maxRetries frame log => exact hmono hc
  | _ => trivial

omit [NeZero N] in
theorem Reader.Cursored.atEntry (c : ReadCall size) :
    (Reader.atEntry h.published.length c).Cursored h ∧
      (Reader.atEntry h.published.length c).Nonempty := by
  cases c with
  | load out => exact ⟨.capture (Nat.le_refl _), trivial⟩
  | loadBounded out maxRetries => exact ⟨.capture (Nat.le_refl _), trivial⟩
  | snapshot out k => exact ⟨trivial, trivial⟩

/-- The bound on the calls is inherited backwards. A bound on the last state of a run is one
on all of them. -/
theorem World.calls_of_step {w w' : World N size ι} {l : Label size ι} (h : w.step l = some w')
    (hcalls : w'.hist.calls < 2 ^ 63) : w.hist.calls < 2 ^ 63 := by
  cases hl : l.isWriting with
  | true => exact (World.step_writing h hl).1.calls_le.trans_lt hcalls
  | false => rw [← (World.step_reading h hl).2.1]; exact hcalls

theorem World.step_cursored {w w' : World N size ι} {l : Label size ι}
    (hcalls : w'.hist.calls < 2 ^ 63) (hw : w.Cursored) (h : w.step l = some w') : w'.Cursored := by
  refine ⟨World.step_inv (fun _ => hw.1) h hcalls, ?_⟩
  cases hl : l.isWriting with
  | true =>
      obtain ⟨hmove, hreaders⟩ := World.step_writing h hl
      have hrely := hmove.rely hw.1 (World.calls_of_step h hcalls)
      rw [hreaders]
      exact fun r => (hw.2 r).mono hrely.published.length_le
  | false =>
      obtain ⟨-, hh, -, r, rd, hreaders, hcase⟩ := World.step_reading h hl
      rw [hh, hreaders]
      intro r'
      by_cases hr' : r' = r
      · subst hr'
        rw [Function.update_self]
        rcases hcase with ⟨c, -, rfl⟩ | ⟨-, hnext⟩
        · exact (Reader.Cursored.atEntry c).1
        · exact ((hw.2 r').next hw.1 hnext).1
      · rw [Function.update_of_ne hr']
        exact hw.2 r'

/-- No reader's last answer was "empty" after a start with something published. -/
def World.Nonempty (w : World N size ι) : Prop := ∀ r, (w.readers r).Nonempty

theorem World.step_nonempty {w w' : World N size ι} {l : Label size ι} (hw : w.Cursored)
    (hne : w.Nonempty) (h : w.step l = some w') : w'.Nonempty ↔ NoRetractedRead w l := by
  cases hl : l.isWriting with
  | true =>
      obtain ⟨-, hreaders⟩ := World.step_writing h hl
      have hC : NoRetractedRead w l := by
        cases l with
        | read r => simp [Label.isWriting] at hl
        | _ => trivial
      refine ⟨fun _ => hC, fun _ r => ?_⟩
      rw [hreaders]
      exact hne r
  | false =>
      obtain ⟨-, -, -, r, rd, hreaders, hcase⟩ := World.step_reading h hl
      -- the other readers have not moved, so only `rd` decides
      have hiff : w'.Nonempty ↔ rd.Nonempty := by
        constructor
        · intro hall
          have := hall r
          rwa [hreaders, Function.update_self] at this
        · intro hrd r'
          rw [hreaders]
          by_cases hr' : r' = r
          · rw [hr', Function.update_self]; exact hrd
          · rw [Function.update_of_ne hr']; exact hne r'
      rw [hiff]
      rcases hcase with ⟨c, rfl, rfl⟩ | ⟨rfl, hnext⟩
      · exact ⟨fun _ => trivial, fun _ => (Reader.Cursored.atEntry (h := w.hist) c).2⟩
      · exact ((hw.2 r).next hw.1 hnext).2

/-- **A published history reads as empty exactly through a retracted cell**: along
a run no read-latest call answers "empty" after a start with something published
if and only if none of them loads the first sequence of a cell that a repair has
reset and no store has taken up again. -/
theorem nonempty_iff_no_retracted_read {w : World N size ι} {ls : List (Label size ι)}
    (hrun : World.run ls = some w) (hcalls : w.hist.calls < 2 ^ 63) :
    Run.Along World.step World.Nonempty (World.init N size ι) ls ↔
      Run.Steps World.step NoRetractedRead (World.init N size ι) ls :=
  Run.along_iff_steps (B := fun w => w.hist.calls < 2 ^ 63) World.calls_of_step World.step_cursored
    (fun _ => World.step_nonempty) World.init_cursored (fun _ => trivial) hrun hcalls

/-- Two stores at depth two, a third killed and repaired, and a load after it. -/
def readAfterRepair : List (Label 9 Unit) :=
  [stores (.replicate 9 1) 8, stores (.replicate 9 2) 8, stores (.replicate 9 3) 5,
   killedAndRepaired 3, calls () (.load (.replicate 9 0)) 6].flatten

theorem nonempty_iff_readAfterRepair : ∃ w : World 2 9 Unit,
    World.run readAfterRepair = some w ∧ (w.readers ()).delivered = [.replicate 9 2] ∧
    Run.Along World.step World.Nonempty (World.init 2 9 Unit) readAfterRepair := by
  have hex : ∃ w : World 2 9 Unit, World.run readAfterRepair = some w ∧
      w.hist.calls < 2 ^ 63 ∧ (w.readers ()).delivered = [.replicate 9 2] :=
    Run.exists_exec (by decide +kernel)
  obtain ⟨w, hrun, hcalls, hdel⟩ := hex
  exact ⟨w, hrun, hdel, (nonempty_iff_no_retracted_read hrun hcalls).mpr (by decide +kernel)⟩

/-- Depth two: a load captures the cursor one; the second store publishes, the
third, back in the first cell, is killed with the sequence odd and repaired. -/
def emptyRun : List (Label 9 Unit) :=
  [stores (.replicate 9 1) 8, calls () (.load (.replicate 9 0)) 1, stores (.replicate 9 2) 8,
   stores (.replicate 9 3) 3, killedAndRepaired 3, reads () 1].flatten

theorem emptyRun_reads_empty : ∃ w : World 2 9 Unit,
    World.run emptyRun = some w ∧ w.hist.calls < 2 ^ 63 ∧ ¬ (w.readers ()).Nonempty :=
  Run.exists_exec (by decide +kernel)

/-- Only a reader that slept through a lap meets a retracted cell. -/
theorem Cursored.lapped {log : CallLog} {c : UInt64} (hc : Cursored h log (.first c))
    (hi : Inv m h wr) (hret : h.retracted (readCell c 0) = true) :
    c.toNat - 1 + N ≤ h.published.length := by
  obtain ⟨hpos, hle⟩ := hc.cursor rfl
  have hcell := hi.retracted_at hret
  rw [readCell, toNat_snapshotWant hpos, Nat.sub_zero] at hcell
  exact Word.add_le_of_mod_eq (by omega) (cellOf_eq_iff.mp hcell)

end XmBase.Concurrency.SeqlockRing
