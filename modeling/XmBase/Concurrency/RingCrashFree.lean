import XmBase.Concurrency.RingAnswers
/-!
# XmBase.Concurrency.RingCrashFree

**Runs in which the writer is never killed.**

Without resets the sequences are exact: a cell whose next position is `q` has
sequence `2 * (q / N)`, one more while that store is in flight. So a reader that
fails to validate position `q` has proof that the store of position `q + N`
began (`LowerInv.failed`), which is the lap-detection argument of the source and
gives `Snapshot` its lower bound; and no read can span a reset, so the answers
of `RingAnswers` hold without a side condition.
-/

namespace XmBase.Concurrency.SeqlockRing

open Bytes (toWords ofWords)

variable {N size : Nat} [NeZero N] {ι : Type} [DecidableEq ι]
  {m m' : Mem N size} {h h' : History N size} {wr wr' : Writer size}

/-! ### Exact sequences

In a run without kills a sequence counts the stores into its cell, two for each, so it can
be read off the position: `2 * (q / N)` before the store of position `q`. `FreeInv` says
this of every cell the writer has not reached in its current lap and of the one it is in. -/

/-- How often the store in flight has raised the sequence; nothing for a writer
that was killed. -/
def Writer.raised : Writer size → Option Nat
  | .idle | .storing _ .loadCount | .storing _ (.loadSeq _) | .storing _ (.storeOdd ..) => some 0
  | .storing _ (.storeIndex ..) | .storing _ (.copy ..) => some 1
  | .storing _ (.storeCount _) => some 2
  | .dead | .repairing _ => none

/-- The invariant of the writing side in a run without kills. `ahead` and `inFlight` fix the
sequences, `held` is the clause of `Outside` for a store that has not begun rather than for
one that has not ended. -/
structure FreeInv (m : Mem N size) (h : History N size) (wr : Writer size) : Prop where
  resets : ∀ j, h.resets j = 0
  retracted : ∀ j, h.retracted j = false
  ahead : ∀ {q}, h.published.length < q → q < h.published.length + N →
    (m (.seq (cellOf q))).toNat = 2 * (q / N)
  inFlight : ∃ k, wr.raised = some k ∧ h.begun = h.published.length + min k 1 ∧
    (m (.seq (cellOf h.published.length))).toNat = 2 * (h.published.length / N) + k
  held : ∀ {q v}, h.published[q]? = some v → h.begun ≤ q + N → Holds m (cellOf q) q v

theorem FreeInv.alive (hf : FreeInv m h wr) : wr ≠ .dead := by
  rintro rfl
  obtain ⟨k, hk, -⟩ := hf.inFlight
  simp [Writer.raised] at hk

/-- Only a kill leaves the writer dead. -/
theorem World.not_dead_of_step {w w' : World N size ι} {l : Label size ι} (hl : l ≠ .kill)
    (h : w.step l = some w') (halive : w.writer ≠ .dead) : w'.writer ≠ .dead := by
  obtain ⟨m, wr, rd, hist⟩ := w
  cases l with
  | kill => exact absurd rfl hl
  | callStore v =>
      cases wr with
      | idle => obtain rfl := Option.some.inj h; simp
      | _ => simp [World.step] at h
  | write =>
      cases wr with
      | storing v pc =>
          obtain rfl := Option.some.inj h
          dsimp only
          split <;> simp
      | repairing pc =>
          obtain rfl := Option.some.inj h
          dsimp only
          split <;> simp
      | _ => simp [World.step] at h
  | callRepair =>
      cases wr with
      | dead => exact absurd rfl halive
      | _ => simp [World.step] at h
  | call r c =>
      obtain ⟨-, -, hw, -⟩ := World.step_reading h rfl
      rw [hw]
      exact halive
  | read r =>
      obtain ⟨-, -, hw, -⟩ := World.step_reading h rfl
      rw [hw]
      exact halive

theorem FreeInv.init : FreeInv (zeroed N size) ⟨[], 0, 0, fun _ => 0, fun _ => false⟩ .idle where
  resets := fun _ => rfl
  retracted := fun _ => rfl
  ahead := by
    intro q _ hq
    rw [List.length_nil, Nat.zero_add] at hq
    simp [zeroed, Nat.div_eq_of_lt hq]
  inFlight := ⟨0, rfl, rfl, by simp [zeroed]⟩
  held := by simp

/-- A published position that no store has lapped has its cell's exact
sequence. -/
theorem FreeInv.seq_eq (hf : FreeInv m h wr) {q : Nat} (hq : q < h.published.length)
    (hlap : h.begun ≤ q + N) : (m (.seq (cellOf q))).toNat = 2 * (q / N + 1) := by
  obtain ⟨k, -, hbegun, hseq⟩ := hf.inFlight
  have hdiv : (q + N) / N = q / N + 1 := Nat.add_div_right q (Nat.pos_of_neZero N)
  rw [← cellOf_add_depth, ← hdiv]
  rcases Nat.lt_or_ge h.published.length (q + N) with hlt | hge
  · exact hf.ahead hlt (by omega)
  · have hn : h.published.length = q + N := by omega
    have hk : k = 0 := by omega
    rw [← hn, hseq, hk]
    rfl

/-- A write into the in-flight cell leaves the exact sequences of the others. -/
theorem FreeInv.ahead_update (hf : FreeInv m h wr) {l : Loc N size} {x : UInt64}
    (hl : l.cell? = some (cellOf h.published.length)) {q : Nat}
    (hq : h.published.length < q) (hqN : q < h.published.length + N) :
    (Function.update m l x (.seq (cellOf q))).toNat = 2 * (q / N) := by
  rw [update_of_cell_ne]
  · exact hf.ahead hq hqN
  · rw [hl]
    exact fun he => cellOf_ne hq hqN (Option.some.inj he).symm

/-- The store begins in the in-flight cell. -/
theorem FreeInv.storeOdd {v : Payload size} {idx s : UInt64}
    (hf : FreeInv m h (.storing v (.storeOdd idx s))) (hi : Inv m h (.storing v (.storeOdd idx s)))
    (hi' : Inv (Function.update m (.seq (cellOf idx.toNat)) (s + 1))
      (h.afterStore v (.storeOdd idx s)) (.storing v (.storeIndex idx s)))
    (hcalls : h.calls < 2 ^ 63) :
    FreeInv (Function.update m (.seq (cellOf idx.toNat)) (s + 1))
      (h.afterStore v (.storeOdd idx s)) (.storing v (.storeIndex idx s)) := by
  obtain ⟨k, hk, hbegun, hseq⟩ := hf.inFlight
  obtain rfl := Option.some.inj hk
  obtain ⟨-, -, hidx, rfl⟩ := hi.phase
  have hle := hi.seq_le (cellOf h.published.length)
  have hb := hi.begun_le
  rw [hi.cell_eq hidx] at hi' ⊢
  exact {
    resets := hf.resets
    retracted := fun j => by
      simp only [History.afterStore]
      by_cases hj : j = cellOf idx.toNat
      · rw [hj, Function.update_self]
      · rw [Function.update_of_ne hj]
        exact hf.retracted j
    ahead := fun hq hqN => hf.ahead_update rfl hq hqN
    inFlight := by
      refine ⟨1, rfl, ?_, ?_⟩
      · simp only [History.afterStore]
        omega
      · simp only [History.afterStore]
        rw [Function.update_self, Word.toNat_add_of_lt (by simp; omega), hseq]
        rfl
    held := fun hq hlap => hi'.outside.held hq (by
      simp only [History.afterStore] at hlap ⊢
      omega) }

/-- The store is complete, and the cell after it is the one in flight. -/
theorem FreeInv.storeCount {v : Payload size} {idx : UInt64}
    (hf : FreeInv m h (.storing v (.storeCount idx))) (hi : Inv m h (.storing v (.storeCount idx))) :
    FreeInv (Function.update m .writeCount (idx + 1)) (h.afterStore v (.storeCount idx)) .idle := by
  obtain ⟨k, hk, hbegun, hseq⟩ := hf.inFlight
  obtain rfl := Option.some.inj hk
  have hmem : ∀ j, Function.update m .writeCount (idx + 1) (.seq j) = m (.seq j) :=
    fun j => Function.update_of_ne (by simp) _ _
  -- the cell just completed is the one whose next position is a lap ahead
  have hnext : ∀ {q}, h.published.length < q → q ≤ h.published.length + N →
      (m (.seq (cellOf q))).toNat = 2 * (q / N) := by
    intro q hq hqN
    rcases Nat.lt_or_ge q (h.published.length + N) with hlt | hge
    · exact hf.ahead hq hlt
    · obtain rfl : q = h.published.length + N := by omega
      rw [cellOf_add_depth, hseq, Nat.add_div_right _ (Nat.pos_of_neZero N)]
      omega
  have hpos := Nat.pos_of_neZero N
  exact {
    resets := hf.resets
    retracted := hf.retracted
    ahead := by
      intro q hq hqN
      simp only [History.afterStore, List.length_append, List.length_singleton] at hq hqN
      rw [hmem]
      exact hnext (by omega) (by omega)
    inFlight := by
      refine ⟨0, rfl, ?_, ?_⟩
      · simp only [History.afterStore, List.length_append, List.length_singleton]
        omega
      · simp only [History.afterStore, List.length_append, List.length_singleton]
        rw [hmem]
        exact hnext (by omega) (by omega)
    held := by
      intro q u hq hlap
      simp only [History.afterStore] at hq hlap
      exact hi.held_after_count hq (by omega) }

/-- **A move of the writing side other than a kill keeps the sequences exact.** -/
theorem FreeInv.move (hf : FreeInv m h wr) (hi : Inv m h wr) (hi' : Inv m' h' wr')
    (hmove : WriterMove m h wr m' h' wr') (halive : wr' ≠ .dead) (hcalls : h.calls < 2 ^ 63) :
    FreeInv m' h' wr' := by
  obtain ⟨k, hk, hbegun, hseq⟩ := hf.inFlight
  cases hmove with
  | callStore v =>
      obtain rfl := Option.some.inj hk
      exact { hf with inFlight := ⟨0, rfl, hbegun, hseq⟩ }
  | loadCount v =>
      obtain rfl := Option.some.inj hk
      exact { hf with inFlight := ⟨0, rfl, hbegun, hseq⟩ }
  | loadSeq v idx =>
      obtain rfl := Option.some.inj hk
      exact { hf with inFlight := ⟨0, rfl, hbegun, hseq⟩ }
  | storeOdd v idx s => exact hf.storeOdd hi hi' hcalls
  | storeIndex v idx s =>
      obtain rfl := Option.some.inj hk
      obtain ⟨hidx, -⟩ := hi.phase
      rw [hi.cell_eq hidx] at hi' ⊢
      exact { hf with
        ahead := fun hq hqN => hf.ahead_update rfl hq hqN
        inFlight := ⟨1, rfl, hbegun, by rw [Function.update_of_ne (by simp)]; exact hseq⟩
        held := fun hq hlap => hi'.outside.held hq (by omega) }
  | storeWord v idx s i hlt =>
      obtain rfl := Option.some.inj hk
      obtain ⟨hidx, -⟩ := hi.phase
      rw [hi.cell_eq hidx] at hi' ⊢
      exact { hf with
        ahead := fun hq hqN => hf.ahead_update rfl hq hqN
        inFlight := ⟨1, rfl, hbegun, by rw [Function.update_of_ne (by simp)]; exact hseq⟩
        held := fun hq hlap => hi'.outside.held hq (by omega) }
  | storeEven v idx s i hge =>
      obtain rfl := Option.some.inj hk
      obtain ⟨hidx, hfl, -, -⟩ := hi.phase
      have hlt := hfl.lt hi hcalls
      rw [hfl.seq, Word.toNat_add_of_lt (by simp; omega)] at hseq
      rw [hi.cell_eq hidx] at hi' ⊢
      exact { hf with
        ahead := fun hq hqN => hf.ahead_update rfl hq hqN
        inFlight := by
          refine ⟨2, rfl, hbegun, ?_⟩
          rw [Function.update_self, Word.toNat_add_of_lt (by simp; omega)]
          simp at hseq ⊢
          omega
        held := fun hq hlap => hi'.outside.held hq (by omega) }
  | storeCount v idx => exact hf.storeCount hi
  -- nobody is killed, so nobody repairs
  | killStore v pc => exact absurd rfl halive
  | killRepair pc => exact absurd rfl halive
  | callRepair => simp [Writer.raised] at hk
  | repairCount => simp [Writer.raised] at hk
  | repairOdd idx hodd => simp [Writer.raised] at hk
  | repairEven idx heven => simp [Writer.raised] at hk
  | reset idx => simp [Writer.raised] at hk

/-! ### Lap detection

A walk has to give up where the writer has been, and may not give up anywhere else. That is
what the lower bound of `Snapshot` needs: from the exact sequences, a cell that is odd, has
changed or holds another position can only be in that state because a later store went into
it. -/

/-- What a call knows of the cell it reads as long as no store has lapped it. As long as the
cell is not lapped its sequence is that of the wanted position and its index is the
position; so a reader that finds anything else knows better. -/
def LowerInv (N : Nat) (h : History N size) (i : Nat) : ReadPc → Prop
  | .capture | .first _ => True
  | .index c s1 => h.begun ≤ c.toNat - 1 - i + N → s1.toNat = 2 * ((c.toNat - 1 - i) / N + 1)
  | .copy c s1 idx _ => h.begun ≤ c.toNat - 1 - i + N →
      s1.toNat = 2 * ((c.toNat - 1 - i) / N + 1) ∧ idx = snapshotWant c i

omit [NeZero N] in
theorem LowerInv.mono {i : Nat} {pc : ReadPc} (hl : LowerInv N h i pc) (hb : h.begun ≤ h'.begun) :
    LowerInv N h' i pc := by
  cases pc with
  | capture => trivial
  | first c => trivial
  | index c s1 => exact fun hlap => hl (hb.trans hlap)
  | copy c s1 idx staged => exact fun hlap => hl (hb.trans hlap)

/-- The cell of an unlapped position below a captured cursor is whole. -/
theorem FreeInv.holds_readCell (hf : FreeInv m h wr) {c : UInt64} {i : Nat} (hic : i < c.toNat)
    (hcn : c.toNat ≤ h.published.length) (hlap : h.begun ≤ c.toNat - 1 - i + N) :
    ∃ v, Holds m (readCell c i) (c.toNat - 1 - i) v := by
  have hq : c.toNat - 1 - i < h.published.length := by omega
  refine ⟨h.published[c.toNat - 1 - i], ?_⟩
  rw [readCell, toNat_snapshotWant hic]
  exact hf.held (List.getElem?_eq_getElem hq) hlap

theorem FreeInv.seq_readCell (hf : FreeInv m h wr) {c : UInt64} {i : Nat} (hic : i < c.toNat)
    (hcn : c.toNat ≤ h.published.length) (hlap : h.begun ≤ c.toNat - 1 - i + N) :
    (m (.seq (readCell c i))).toNat = 2 * ((c.toNat - 1 - i) / N + 1) := by
  rw [readCell, toNat_snapshotWant hic]
  exact hf.seq_eq (by omega) hlap

theorem LowerInv.progress {i e : Nat} {pc pc' : ReadPc} (hl : LowerInv N h i pc)
    (hpc : PcInv m h i e pc) (hf : FreeInv m h wr) (ho : observe m i pc = .progress pc') :
    LowerInv N h i pc' := by
  cases pc with
  | capture => simp [observe] at ho
  | first c =>
      simp only [observe] at ho
      split_ifs at ho
      obtain rfl := Outcome.progress.inj ho
      exact fun hlap => hf.seq_readCell hpc.1 hpc.2 hlap
  | index c s1 =>
      obtain rfl := Outcome.progress.inj ho
      intro hlap
      obtain ⟨v, hholds⟩ := hf.holds_readCell hpc.1.1 hpc.1.2 hlap
      refine ⟨hl hlap, UInt64.toNat_inj.mp ?_⟩
      rw [hholds.index, toNat_snapshotWant hpc.1.1]
  | copy c s1 idx staged =>
      simp only [observe] at ho
      split_ifs at ho
      obtain rfl := Outcome.progress.inj ho
      exact hl

/-- **A failed cell read proves a lap**: the store of the position one lap after
the wanted one has begun. -/
theorem LowerInv.failed {i e : Nat} {pc : ReadPc} {c : UInt64} (hl : LowerInv N h i pc)
    (hpc : PcInv m h i e pc) (hf : FreeInv m h wr) (hc : pc.cursor? = some c)
    (ho : observe m i pc = .zero ∨ observe m i pc = .odd ∨ observe m i pc = .invalid) :
    c.toNat - 1 - i + N < h.begun := by
  obtain ⟨hic, hcn⟩ := hpc.cursor_le hc
  by_contra hlap
  obtain ⟨v, hholds⟩ := hf.holds_readCell hic hcn (by omega)
  have hseq := hf.seq_readCell hic hcn (by omega)
  cases pc with
  | capture => simp [ReadPc.cursor?] at hc
  | first c' =>
      obtain rfl := Option.some.inj hc
      have heven : ¬ m (.seq (readCell c' i)) &&& 1 ≠ 0 := by
        rw [Word.and_one_ne_zero]
        have := hholds.seq_even
        omega
      simp only [observe, if_neg hholds.seq_ne, if_neg heven] at ho
      simp at ho
  | index c' s1 => simp [observe] at ho
  | copy c' s1 idx staged =>
      obtain rfl := Option.some.inj hc
      obtain ⟨hs1, hidx⟩ := hl (by omega)
      have hsame : m (.seq (readCell c' i)) = s1 := UInt64.toNat_inj.mp (by rw [hseq, hs1])
      simp only [observe, hsame, hidx, and_self, if_true] at ho
      split_ifs at ho <;> simp at ho

/-- A published cell never reads as never written. Its sequence counts two for each store
into it, and nothing has reset it. -/
theorem FreeInv.observe_ne_zero {i e : Nat} {pc : ReadPc} (hf : FreeInv m h wr) (hi : Inv m h wr)
    (hpc : PcInv m h i e pc) : observe m i pc ≠ .zero := by
  intro ho
  obtain ⟨c, rfl, h0⟩ := observe_zero.mp ho
  have hret := (hi.zero_readCell hpc).mp h0
  rw [hf.retracted] at hret
  simp at hret

/-- Without resets no read spans one. So what is known of delivered values holds here
without a condition. -/
theorem FreeInv.not_spansReset {rd : Reader size} (hf : FreeInv m h wr)
    (hrd : ReaderInv m h rd) : ¬ SpansReset m h rd := by
  intro hspan
  unfold SpansReset at hspan
  split at hspan
  · next i c s1 idx staged log hcall =>
      obtain ⟨-, -, -, hne⟩ := hspan
      have hle := (hrd.pcInv hcall).2.2.1
      rw [hf.resets] at hle hne
      omega
  · exact hspan

/-! ### Answers

What `RingAnswers` says of an answer holds here too; this adds what kills could spoil,
namely that an empty answer means an empty ring and that a walk is not shorter than it has
to be. -/

/-- What the absence of kills adds to an answer: an empty answer is due to a zero
cursor, and a walk is cut only by the stores begun since its capture. -/
def FreeAnswer (N : Nat) : Reader size → Prop
  | .loaded _ log false _ => log.captures.head? = some 0
  | .loadedBounded _ log .kEmpty _ => log.captures.head? = some 0
  | .snapped _ k log ended n _ => ∀ c, log.captures = [c] → c.toNat ≤ ended ∧
      min k (min c.toNat (N - (ended - c.toNat))) ≤ n
  | _ => True

/-- What is known of a reader in a run without kills. -/
structure FreeReader (h : History N size) (rd : Reader size) : Prop where
  lower : ∀ {i pc log}, rd.call? = some (i, pc, log) → LowerInv N h i pc
  answer : FreeAnswer N rd

omit [NeZero N] in
/-- A reader inside a call owes no answer yet. -/
theorem FreeReader.of_call {rd : Reader size} {i : Nat} {pc : ReadPc} {log : CallLog}
    (hcall : rd.call? = some (i, pc, log)) (hlower : LowerInv N h i pc) : FreeReader h rd where
  lower hcall' := by
    have heq := Option.some.inj (hcall.symm.trans hcall')
    simp only [Prod.mk.injEq] at heq
    obtain ⟨rfl, rfl, rfl⟩ := heq
    exact hlower
  answer := by
    cases rd <;> trivial

omit [NeZero N] in
theorem FreeReader.mono {rd : Reader size} (hr : FreeReader h rd) (hb : h.begun ≤ h'.begun) :
    FreeReader h' rd :=
  ⟨fun hcall => (hr.lower hcall).mono hb, hr.answer⟩

omit [NeZero N] in
theorem FreeReader.atEntry (start : Nat) (c : ReadCall size) :
    FreeReader h (.atEntry start c) := by
  cases c with
  | load out => exact .of_call rfl trivial
  | loadBounded out maxRetries => exact .of_call rfl trivial
  | snapshot out k => exact .of_call rfl trivial

theorem FreeReader.next_load {out : Payload size} {pc : ReadPc} {log : CallLog} {rd' : Reader size}
    (hr : FreeReader h (.load out pc log)) (hrd : ReaderInv m h (.load out pc log))
    (hf : FreeInv m h wr) (hi : Inv m h wr)
    (hnext : (Reader.load out pc log).next m h = some rd') : FreeReader h rd' := by
  obtain rfl := Option.some.inj hnext
  have hpc : PcInv m h 0 log.epoch pc := hrd.1
  cases hobs : observe m 0 pc with
  | captured c =>
      obtain ⟨rfl, rfl⟩ := observe_captured hobs
      by_cases h0 : m .writeCount = 0
      · simp only [loadOn, if_pos h0]
        refine ⟨by simp [Reader.call?], ?_⟩
        simp [FreeAnswer, CallLog.note, h0]
      · simp only [loadOn, if_neg h0]
        exact .of_call rfl trivial
  | zero => exact absurd hobs (hf.observe_ne_zero hi hpc)
  | odd => exact .of_call rfl trivial
  | invalid => exact .of_call rfl trivial
  | progress pc' => exact .of_call rfl ((hr.lower rfl).progress hpc hf hobs)
  | valid c staged => exact ⟨by simp [loadOn, Reader.call?], trivial⟩

omit [NeZero N] in
theorem FreeReader.boundedRetry {out : Payload size} {maxRetries attempt : UInt32} {log : CallLog} :
    FreeReader h (match SeqlockRing.boundedRetry out maxRetries attempt with
      | .inl frame' => .loadBounded out maxRetries frame' log
      | .inr (result, out') => .loadedBounded out log result out') := by
  unfold SeqlockRing.boundedRetry
  split_ifs
  · exact .of_call rfl trivial
  · exact ⟨by simp [Reader.call?], trivial⟩

theorem FreeReader.next_loadBounded {out : Payload size} {maxRetries : UInt32}
    {frame : BoundedFrame} {log : CallLog} {rd' : Reader size}
    (hr : FreeReader h (.loadBounded out maxRetries frame log))
    (hrd : ReaderInv m h (.loadBounded out maxRetries frame log))
    (hf : FreeInv m h wr) (hi : Inv m h wr)
    (hnext : (Reader.loadBounded out maxRetries frame log).next m h = some rd') :
    FreeReader h rd' := by
  obtain ⟨attempt, pc⟩ := frame
  obtain rfl := Option.some.inj hnext
  have hpc : PcInv m h 0 log.epoch pc := hrd.1
  cases hobs : observe m 0 pc with
  | captured c =>
      obtain ⟨rfl, rfl⟩ := observe_captured hobs
      by_cases h0 : m .writeCount = 0
      · simp only [loadBoundedOn, if_pos h0]
        refine ⟨by simp [Reader.call?], ?_⟩
        simp [FreeAnswer, CallLog.note, h0]
      · simp only [loadBoundedOn, if_neg h0]
        exact .of_call rfl trivial
  | zero => exact absurd hobs (hf.observe_ne_zero hi hpc)
  | odd => exact .boundedRetry
  | invalid => exact .boundedRetry
  | progress pc' => exact .of_call rfl ((hr.lower rfl).progress hpc hf hobs)
  | valid c staged => exact ⟨by simp [loadBoundedOn, Reader.call?], trivial⟩

omit [NeZero N] in
/-- The head of the walk: what is taken so far is enough, or the walk goes on. -/
theorem FreeReader.snapshotNext {out buf : Nat → Payload size} {k taken ended : Nat} {c : UInt64}
    {log : CallLog} (hcap : log.captures = [c]) (hc : c.toNat ≤ ended) :
    FreeReader h (match SeqlockRing.snapshotNext N k c taken buf with
      | .inl frame' => .snapshot out k frame' log
      | .inr (n, out') => .snapped out k log ended n out') := by
  unfold SeqlockRing.snapshotNext
  split_ifs with hlt
  · exact .of_call rfl trivial
  · refine ⟨by simp [Reader.call?], ?_⟩
    intro c' hc'
    obtain rfl : c = c' := by simpa [hcap] using hc'
    have hlim := snapshotLimit_eq (N := N) k c
    exact ⟨hc, by omega⟩

theorem FreeReader.next_snapshot {out : Nat → Payload size} {k : Nat} {frame : SnapshotFrame size}
    {log : CallLog} {rd' : Reader size} (hr : FreeReader h (.snapshot out k frame log))
    (hrd : ReaderInv m h (.snapshot out k frame log)) (hf : FreeInv m h wr) (hi : Inv m h wr)
    (hnext : (Reader.snapshot out k frame log).next m h = some rd') : FreeReader h rd' := by
  obtain ⟨taken, buf, pc⟩ := frame
  obtain ⟨hpc, -, h0, hwalk⟩ := hrd
  obtain rfl := Option.some.inj hnext
  have hpub := hi.published_le
  -- a walk cut at entry `taken` was lapped there
  have hcut : (observe m taken pc = .zero ∨ observe m taken pc = .odd ∨
      observe m taken pc = .invalid) →
      FreeReader h (.snapped out k (log.note m h taken pc) h.begun taken buf) := by
    intro hfail
    have hne : pc ≠ .capture := by
      rintro rfl
      simp [observe] at hfail
    refine ⟨by simp [Reader.call?], ?_⟩
    intro c hc
    rw [CallLog.note_captures hne] at hc
    obtain ⟨c', hc'⟩ : ∃ c', pc.cursor? = some c' := by
      cases pc with
      | capture => exact absurd rfl hne
      | _ => exact ⟨_, rfl⟩
    obtain rfl : c' = c := by simpa [(hwalk c' hc').1] using hc
    have hlap := (hr.lower rfl).failed hpc hf hc' hfail
    obtain ⟨hic, hcn⟩ := hpc.cursor_le hc'
    dsimp only at hlap hic
    exact ⟨by omega, by omega⟩
  cases hobs : observe m taken pc with
  | captured c =>
      obtain ⟨rfl, rfl⟩ := observe_captured hobs
      obtain ⟨-, -, hnil⟩ := h0 rfl
      exact .snapshotNext (by simp only [CallLog.note, hnil]) (by rw [hi.outside.count]; exact hpub)
  | zero => exact hcut (Or.inl hobs)
  | odd => exact hcut (Or.inr (Or.inl hobs))
  | invalid => exact hcut (Or.inr (Or.inr hobs))
  | progress pc' => exact .of_call rfl ((hr.lower rfl).progress hpc hf hobs)
  | valid c staged =>
      obtain ⟨s1, rfl, -, -⟩ := observe_valid hobs
      exact .snapshotNext (hwalk c rfl).1 (hpc.1.2.trans hpub)

theorem FreeReader.next {rd rd' : Reader size} (hr : FreeReader h rd) (hrd : ReaderInv m h rd)
    (hf : FreeInv m h wr) (hi : Inv m h wr) (hnext : rd.next m h = some rd') :
    FreeReader h rd' := by
  cases rd with
  | load out pc log => exact hr.next_load hrd hf hi hnext
  | loadBounded out maxRetries frame log => exact hr.next_loadBounded hrd hf hi hnext
  | snapshot out k frame log => exact hr.next_snapshot hrd hf hi hnext
  | _ => simp [Reader.next] at hnext

/-! ### Whole runs

Three invariants in one induction: of the writing side (`Inv`), of its sequences (`FreeInv`)
and of each reader. The hypothesis of the run is that no label is `kill`. -/

/-- Everything known of a run without kills. The bound keeps the sequences from wrapping. -/
def World.Free (w : World N size ι) : Prop :=
  w.hist.calls < 2 ^ 63 → Inv w.mem w.hist w.writer ∧ FreeInv w.mem w.hist w.writer ∧
    ∀ r, ReaderInv w.mem w.hist (w.readers r) ∧ FreeReader w.hist (w.readers r)

theorem World.step_free {w w' : World N size ι} {l : Label size ι} (hl : l ≠ .kill)
    (hw : w.Free) (h : w.step l = some w') : w'.Free := by
  intro hcalls
  cases hwr : l.isWriting with
  | true =>
      obtain ⟨hmove, hreaders⟩ := World.step_writing h hwr
      have hc : w.hist.calls < 2 ^ 63 := hmove.calls_le.trans_lt hcalls
      obtain ⟨hi, hf, hr⟩ := hw hc
      have hi' := hi.move hmove hcalls
      have hrely := hmove.rely hi hc
      refine ⟨hi', hf.move hi hi' hmove (World.not_dead_of_step hl h hf.alive) hc, ?_⟩
      rw [hreaders]
      exact fun r => ⟨(hr r).1.rely hrely, (hr r).2.mono hrely.begun⟩
  | false =>
      obtain ⟨hm, hh, hwriter, r, rd, hreaders, hcase⟩ := World.step_reading h hwr
      rw [hh] at hcalls
      obtain ⟨hi, hf, hr⟩ := hw hcalls
      rw [hm, hh, hwriter, hreaders]
      refine ⟨hi, hf, ?_⟩
      intro r'
      by_cases hr' : r' = r
      · subst hr'
        rw [Function.update_self]
        rcases hcase with ⟨c, -, rfl⟩ | ⟨-, hnext⟩
        · exact ⟨.atEntry c, .atEntry _ c⟩
        · obtain ⟨hrd, hfr⟩ := hr r'
          exact ⟨hrd.next hi (hf.not_spansReset hrd) hnext, hfr.next hrd hf hi hnext⟩
      · rw [Function.update_of_ne hr']
        exact hr r'

omit [DecidableEq ι] in
theorem World.init_free : (World.init N size ι).Free :=
  fun _ => ⟨Inv.init, FreeInv.init, fun _ => ⟨trivial, by simp [World.init, Reader.call?], trivial⟩⟩

theorem World.run_free {w : World N size ι} {ls : List (Label size ι)} (h : World.run ls = some w)
    (hfree : ∀ l ∈ ls, l ≠ .kill) : w.Free :=
  Run.exec_invariant_of_steps World.step_free (Run.steps_of_forall_mem hfree _) World.init_free h

end XmBase.Concurrency.SeqlockRing
