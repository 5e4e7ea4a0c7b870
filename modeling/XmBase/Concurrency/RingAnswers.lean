import XmBase.Concurrency.RingReader
/-!
# XmBase.Concurrency.RingAnswers

**What the read verbs answer**, in every run, as long as no read spans a reset.

`ReaderInv` carries a call from its entry to its return: the captured cursors
are logged, a walk's entries are the published values at consecutive descending
positions, and the caller's `out` is written only by a validated copy.
-/

namespace XmBase.Concurrency.SeqlockRing

open Bytes (toWords ofWords)

variable {N size : Nat} [NeZero N] {ι : Type} [DecidableEq ι]
  {m m' : Mem N size} {h h' : History N size} {wr wr' : Writer size}

/-! ### Answers

What a call that has returned must satisfy, and what one in flight must know to get there.
The answer of a read-latest verb is the value below the cursor it captured last, since a
failed validation starts over from a new cursor; a walk captures its cursor once. -/

/-- Every cursor the call captured is a count of completed stores between the call's start
and now. So an answer is never older than the call. -/
structure Logged (h : History N size) (log : CallLog) : Prop where
  start_le : log.start ≤ h.published.length
  captures : ∀ c ∈ log.captures, log.start ≤ c.toNat ∧ c.toNat ≤ h.published.length

/-- `out'` is the value at position `c - 1`, for the last captured cursor `c`. `c` is a
count, so the newest position below it is `c - 1`. -/
def Latest (h : History N size) (log : CallLog) (out' : Payload size) : Prop :=
  ∃ c, log.captures.head? = some c ∧ c ≠ 0 ∧ h.published[c.toNat - 1]? = some out'

/-- `buf` holds the `n` newest values below the cursor `c`, newest first, and is
`out` from there on. -/
structure Entries (h : History N size) (c : UInt64) (out : Nat → Payload size) (n : Nat)
    (buf : Nat → Payload size) : Prop where
  taken : ∀ i < n, h.published[c.toNat - 1 - i]? = some (buf i)
  rest : ∀ i, n ≤ i → buf i = out i

/-- What is known of a reader. In a call it is the knowledge at the program counter and the
log; after it, the answer. -/
def ReaderInv (m : Mem N size) (h : History N size) : Reader size → Prop
  | .idle => True
  | .load _ pc log => PcInv m h 0 log.epoch pc ∧ Logged h log ∧
      ∀ c, pc.cursor? = some c → log.captures.head? = some c
  | .loadBounded _ _ frame log => PcInv m h 0 log.epoch frame.pc ∧ Logged h log ∧
      ∀ c, frame.pc.cursor? = some c → log.captures.head? = some c
  | .snapshot out k frame log => PcInv m h frame.taken log.epoch frame.pc ∧ Logged h log ∧
      (frame.pc = .capture → frame.taken = 0 ∧ frame.out = out ∧ log.captures = []) ∧
      ∀ c, frame.pc.cursor? = some c → log.captures = [c] ∧
        frame.taken < snapshotLimit N k c ∧ Entries h c out frame.taken frame.out
  | .loaded out log found out' => Logged h log ∧
      if found then Latest h log out' else out' = out
  | .loadedBounded out log result out' => Logged h log ∧
      if result = .kValue then Latest h log out' else out' = out
  | .snapped out k log _ n out' => Logged h log ∧
      ∃ c, log.captures = [c] ∧ n ≤ snapshotLimit N k c ∧ Entries h c out n out'

/-- A reader inside a call knows what its program counter stands for. -/
theorem ReaderInv.pcInv {rd : Reader size} {i : Nat} {pc : ReadPc} {log : CallLog}
    (hrd : ReaderInv m h rd) (hcall : rd.call? = some (i, pc, log)) :
    PcInv m h i log.epoch pc := by
  cases rd with
  | load out pc' log' =>
      obtain ⟨rfl, rfl, rfl⟩ := by simpa [Reader.call?] using hcall
      exact hrd.1
  | loadBounded out maxRetries frame log' =>
      obtain ⟨rfl, rfl, rfl⟩ := by simpa [Reader.call?] using hcall
      exact hrd.1
  | snapshot out k frame log' =>
      obtain ⟨rfl, rfl, rfl⟩ := by simpa [Reader.call?] using hcall
      exact hrd.1
  | _ => simp [Reader.call?] at hcall

/-- The values the last call of a reader delivered. -/
def Reader.delivered : Reader size → List (Payload size)
  | .loaded _ _ true out' => [out']
  | .loadedBounded _ _ .kValue out' => [out']
  | .snapped _ _ _ _ n out' => (List.range n).map out'
  | _ => []

theorem ReaderInv.delivered_mem {rd : Reader size} (hrd : ReaderInv m h rd) :
    ∀ v ∈ rd.delivered, v ∈ h.published := by
  intro v hv
  cases rd with
  | loaded out log found out' =>
      cases found with
      | true =>
          obtain rfl := List.mem_singleton.mp hv
          obtain ⟨-, c, -, -, hget⟩ := hrd
          exact List.mem_of_getElem? hget
      | false => simp [Reader.delivered] at hv
  | loadedBounded out log result out' =>
      cases result with
      | kValue =>
          obtain rfl := List.mem_singleton.mp hv
          obtain ⟨-, c, -, -, hget⟩ := hrd
          exact List.mem_of_getElem? hget
      | _ => simp [Reader.delivered] at hv
  | snapped out k log ended n out' =>
      obtain ⟨i, hi, rfl⟩ := List.mem_map.mp hv
      obtain ⟨-, c, -, -, he⟩ := hrd
      exact List.mem_of_getElem? (he.taken i (List.mem_range.mp hi))
  | _ => simp [Reader.delivered] at hv

/-! ### Stability

Publishing only appends, and a reader that has returned does not look at the memory again:
so every part of its answer survives whatever the writing side does. -/

omit [NeZero N] in
theorem Rely.getElem? (hr : Rely m h m' h') {q : Nat} {v : Payload size}
    (hq : h.published[q]? = some v) : h'.published[q]? = some v := by
  obtain ⟨t, ht⟩ := hr.published
  have hlt := (List.getElem?_eq_some_iff.mp hq).1
  rw [← ht, List.getElem?_append_left hlt]
  exact hq

omit [NeZero N] in
theorem Logged.rely {log : CallLog} (hl : Logged h log) (hr : Rely m h m' h') : Logged h' log :=
  have hlen := hr.published.length_le
  ⟨hl.start_le.trans hlen, fun c hc => ⟨(hl.captures c hc).1, (hl.captures c hc).2.trans hlen⟩⟩

omit [NeZero N] in
theorem Latest.rely {log : CallLog} {out' : Payload size} (hl : Latest h log out')
    (hr : Rely m h m' h') : Latest h' log out' := by
  obtain ⟨c, hc, hne, hv⟩ := hl
  exact ⟨c, hc, hne, hr.getElem? hv⟩

omit [NeZero N] in
theorem Entries.rely {c : UInt64} {out buf : Nat → Payload size} {n : Nat}
    (he : Entries h c out n buf) (hr : Rely m h m' h') : Entries h' c out n buf :=
  ⟨fun i hi => hr.getElem? (he.taken i hi), he.rest⟩

/-- What is known of a reader survives the writing side. -/
theorem ReaderInv.rely {rd : Reader size} (hrd : ReaderInv m h rd) (hr : Rely m h m' h') :
    ReaderInv m' h' rd := by
  cases rd with
  | idle => trivial
  | load out pc log =>
      obtain ⟨hpc, hlog, hc⟩ := hrd
      exact ⟨hpc.rely hr, hlog.rely hr, hc⟩
  | loadBounded out maxRetries frame log =>
      obtain ⟨hpc, hlog, hc⟩ := hrd
      exact ⟨hpc.rely hr, hlog.rely hr, hc⟩
  | snapshot out k frame log =>
      obtain ⟨hpc, hlog, h0, hc⟩ := hrd
      refine ⟨hpc.rely hr, hlog.rely hr, h0, ?_⟩
      intro c hcur
      obtain ⟨h1, h2, h3⟩ := hc c hcur
      exact ⟨h1, h2, h3.rely hr⟩
  | loaded out log found out' =>
      obtain ⟨hlog, hans⟩ := hrd
      refine ⟨hlog.rely hr, ?_⟩
      cases found with
      | true => exact Latest.rely hans hr
      | false => exact hans
  | loadedBounded out log result out' =>
      obtain ⟨hlog, hans⟩ := hrd
      refine ⟨hlog.rely hr, ?_⟩
      split_ifs at hans ⊢ with hres
      · exact Latest.rely hans hr
      · exact hans
  | snapped out k log ended n out' =>
      obtain ⟨hlog, c, hcap, hn, he⟩ := hrd
      exact ⟨hlog.rely hr, c, hcap, hn, he.rely hr⟩

/-! ### A reader's own steps

By the verb and the outcome of the access. Each of the three verbs has a lemma of its own,
since each reacts in its own way, and `PcInv.valid` supplies the value where a copy
validates. -/

omit [NeZero N] in
/-- One more entry. The value just read belongs right behind those already taken. -/
theorem Entries.take {c : UInt64} {out buf : Nat → Payload size} {n : Nat} {v : Payload size}
    (he : Entries h c out n buf) (hv : h.published[c.toNat - 1 - n]? = some v) :
    Entries h c out (n + 1) (Function.update buf n v) := by
  constructor
  · intro i hi
    by_cases hin : i = n
    · subst hin
      rw [Function.update_self]
      exact hv
    · rw [Function.update_of_ne hin]
      exact he.taken i (by omega)
  · intro i hi
    rw [Function.update_of_ne (by omega)]
    exact he.rest i (by omega)

omit [NeZero N] in
theorem snapshotLimit_eq (k : Nat) (c : UInt64) :
    snapshotLimit N k c = min k (min c.toNat N) := by
  unfold snapshotLimit
  dsimp only
  split_ifs <;> omega

/-- Capturing the cursor logs the current number of completed stores. -/
theorem Logged.capture {log : CallLog} {i : Nat} (hl : Logged h log) (ho : Outside m h.published) :
    Logged h (log.note m h i .capture) := by
  refine ⟨hl.start_le, ?_⟩
  intro c hc
  rcases List.mem_cons.mp hc with rfl | hc
  · rw [ho.count]
    exact ⟨hl.start_le, Nat.le_refl _⟩
  · exact hl.captures c hc

theorem Logged.note {log : CallLog} {i : Nat} {pc : ReadPc} (hl : Logged h log)
    (ho : Outside m h.published) : Logged h (log.note m h i pc) := by
  cases pc with
  | capture => exact hl.capture ho
  | _ => exact ⟨hl.start_le, hl.captures⟩

/-- A captured non-zero cursor starts a cell read. From here on the cursor is the call's
own, whatever is published meanwhile. -/
theorem PcInv.captured (ho : Outside m h.published) {i e : Nat} {c : UInt64}
    (hc : c = m .writeCount) (hi : i < c.toNat) : PcInv m h i e (.first c) :=
  ⟨hi, by rw [hc, ho.count]⟩

/-- A pending cell read knows its cursor. -/
theorem PcInv.cursor_le {i e : Nat} {pc : ReadPc} {c : UInt64} (hpc : PcInv m h i e pc)
    (hc : pc.cursor? = some c) : i < c.toNat ∧ c.toNat ≤ h.published.length := by
  cases pc with
  | capture => simp [ReadPc.cursor?] at hc
  | first c' => obtain rfl := Option.some.inj hc; exact hpc
  | index c' s1 => obtain rfl := Option.some.inj hc; exact hpc.1
  | copy c' s1 idx staged => obtain rfl := Option.some.inj hc; exact hpc.1

/-- `Load` at an access. -/
theorem ReaderInv.next_load {out : Payload size} {pc : ReadPc} {log : CallLog} {rd' : Reader size}
    (hrd : ReaderInv m h (.load out pc log)) (ho : Outside m h.published)
    (hs : ∀ j, SoundAt m h.published j) (hno : ¬ SpansReset m h (.load out pc log))
    (hnext : (Reader.load out pc log).next m h = some rd') : ReaderInv m h rd' := by
  obtain ⟨hpc, hlog, hhead⟩ := hrd
  obtain rfl := Option.some.inj hnext
  have hlog' : Logged h (log.note m h 0 pc) := hlog.note ho
  cases hobs : observe m 0 pc with
  | captured c =>
      obtain ⟨rfl, rfl⟩ := observe_captured hobs
      by_cases h0 : m .writeCount = 0
      · simp only [loadOn, if_pos h0]
        exact ⟨hlog', rfl⟩
      · simp only [loadOn, if_neg h0]
        refine ⟨.captured ho rfl ((Word.ne_zero_iff _).mp h0), hlog', ?_⟩
        intro c hc
        obtain rfl := Option.some.inj hc
        rfl
  | zero => exact ⟨hlog', rfl⟩
  | odd => exact ⟨trivial, hlog', by simp [ReadPc.cursor?]⟩
  | invalid => exact ⟨trivial, hlog', by simp [ReadPc.cursor?]⟩
  | progress pc' =>
      obtain ⟨hcur, hne⟩ := observe_progress_cursor hobs
      refine ⟨hpc.progress hobs, hlog', ?_⟩
      rw [hcur, CallLog.note_captures hne]
      exact hhead
  | valid c staged =>
      have hv := hpc.valid rfl hno hs hobs
      obtain ⟨s1, rfl, -, -⟩ := observe_valid hobs
      exact ⟨hlog', c, hhead c rfl, (Word.ne_zero_iff _).mpr hpc.1.1, hv⟩

/-- A failed attempt of `LoadBounded`, retried or given up. -/
theorem ReaderInv.boundedRetry {out : Payload size} {maxRetries attempt : UInt32} {log : CallLog}
    (hlog : Logged h log) :
    ReaderInv m h (match SeqlockRing.boundedRetry out maxRetries attempt with
      | .inl frame' => .loadBounded out maxRetries frame' log
      | .inr (result, out') => .loadedBounded out log result out') := by
  unfold SeqlockRing.boundedRetry
  split_ifs
  · exact ⟨trivial, hlog, by simp [ReadPc.cursor?]⟩
  · exact ⟨hlog, rfl⟩

/-- `LoadBounded` at an access. -/
theorem ReaderInv.next_loadBounded {out : Payload size} {maxRetries : UInt32}
    {frame : BoundedFrame} {log : CallLog} {rd' : Reader size}
    (hrd : ReaderInv m h (.loadBounded out maxRetries frame log)) (ho : Outside m h.published)
    (hs : ∀ j, SoundAt m h.published j)
    (hno : ¬ SpansReset m h (.loadBounded out maxRetries frame log))
    (hnext : (Reader.loadBounded out maxRetries frame log).next m h = some rd') :
    ReaderInv m h rd' := by
  obtain ⟨attempt, pc⟩ := frame
  obtain ⟨hpc, hlog, hhead⟩ := hrd
  obtain rfl := Option.some.inj hnext
  have hlog' : Logged h (log.note m h 0 pc) := hlog.note ho
  cases hobs : observe m 0 pc with
  | captured c =>
      obtain ⟨rfl, rfl⟩ := observe_captured hobs
      by_cases h0 : m .writeCount = 0
      · simp only [loadBoundedOn, if_pos h0]
        exact ⟨hlog', rfl⟩
      · simp only [loadBoundedOn, if_neg h0]
        refine ⟨.captured ho rfl ((Word.ne_zero_iff _).mp h0), hlog', ?_⟩
        intro c hc
        obtain rfl := Option.some.inj hc
        rfl
  | zero => exact ⟨hlog', rfl⟩
  | odd => exact .boundedRetry hlog'
  | invalid => exact .boundedRetry hlog'
  | progress pc' =>
      obtain ⟨hcur, hne⟩ := observe_progress_cursor hobs
      refine ⟨hpc.progress hobs, hlog', ?_⟩
      rw [hcur, CallLog.note_captures hne]
      exact hhead
  | valid c staged =>
      have hv := hpc.valid rfl hno hs hobs
      obtain ⟨s1, rfl, -, -⟩ := observe_valid hobs
      exact ⟨hlog', c, hhead c rfl, (Word.ne_zero_iff _).mpr hpc.1.1, hv⟩

/-- The head of `Snapshot`'s walk: one more entry to read, or done. -/
theorem ReaderInv.snapshotNext {out buf : Nat → Payload size} {k taken ended : Nat} {c : UInt64}
    {log : CallLog} (hlog : Logged h log) (hcap : log.captures = [c])
    (hc : c.toNat ≤ h.published.length) (hle : taken ≤ snapshotLimit N k c)
    (he : Entries h c out taken buf) :
    ReaderInv m h (match SeqlockRing.snapshotNext N k c taken buf with
      | .inl frame' => .snapshot out k frame' log
      | .inr (n, out') => .snapped out k log ended n out') := by
  unfold SeqlockRing.snapshotNext
  split_ifs with hlt
  · have hlim := snapshotLimit_eq (N := N) k c
    refine ⟨⟨by simp only; omega, hc⟩, hlog, by simp, ?_⟩
    intro c' hc'
    obtain rfl := Option.some.inj hc'
    exact ⟨hcap, hlt, he⟩
  · exact ⟨hlog, c, hcap, hle, he⟩

/-- `Snapshot` at an access. -/
theorem ReaderInv.next_snapshot {out : Nat → Payload size} {k : Nat} {frame : SnapshotFrame size}
    {log : CallLog} {rd' : Reader size} (hrd : ReaderInv m h (.snapshot out k frame log))
    (ho : Outside m h.published) (hs : ∀ j, SoundAt m h.published j)
    (hno : ¬ SpansReset m h (.snapshot out k frame log))
    (hnext : (Reader.snapshot out k frame log).next m h = some rd') : ReaderInv m h rd' := by
  obtain ⟨taken, buf, pc⟩ := frame
  obtain ⟨hpc, hlog, h0, hwalk⟩ := hrd
  obtain rfl := Option.some.inj hnext
  have hlog' : Logged h (log.note m h taken pc) := hlog.note ho
  -- a walk that ends keeps what it has taken
  have hend : pc ≠ .capture →
      ReaderInv m h (.snapped out k (log.note m h taken pc) h.begun taken buf) := by
    intro hne
    obtain ⟨c, hc⟩ : ∃ c, pc.cursor? = some c := by
      cases pc with
      | capture => exact absurd rfl hne
      | _ => exact ⟨_, rfl⟩
    obtain ⟨hcap, hlt, he⟩ := hwalk c hc
    exact ⟨hlog', c, by rw [CallLog.note_captures hne]; exact hcap, hlt.le, he⟩
  cases hobs : observe m taken pc with
  | captured c =>
      obtain ⟨rfl, rfl⟩ := observe_captured hobs
      obtain ⟨rfl, rfl, hnil⟩ := h0 rfl
      refine .snapshotNext hlog' ?_ (by rw [ho.count]) (Nat.zero_le _) ⟨by simp, fun _ _ => rfl⟩
      simp only [CallLog.note, hnil]
  | zero => exact hend (by rintro rfl; simp [observe] at hobs)
  | odd => exact hend (by rintro rfl; simp [observe] at hobs)
  | invalid => exact hend (by rintro rfl; simp [observe] at hobs)
  | progress pc' =>
      obtain ⟨hcur, hne⟩ := observe_progress_cursor hobs
      refine ⟨hpc.progress hobs, hlog', ?_, ?_⟩
      · rintro rfl
        cases pc with
        | capture => exact absurd rfl hne
        | _ => simp [ReadPc.cursor?] at hcur
      · rw [hcur, CallLog.note_captures hne]
        exact hwalk
  | valid c staged =>
      have hv := hpc.valid rfl hno hs hobs
      obtain ⟨s1, rfl, -, -⟩ := observe_valid hobs
      obtain ⟨hcap, hlt, he⟩ := hwalk c rfl
      dsimp only at hlt he
      exact .snapshotNext hlog' hcap hpc.1.2 hlt (he.take hv)

/-- **A reader's step keeps what is known of it**, unless it spans a reset. -/
theorem ReaderInv.next {rd rd' : Reader size} (hrd : ReaderInv m h rd) (hi : Inv m h wr)
    (hno : ¬ SpansReset m h rd) (hnext : rd.next m h = some rd') : ReaderInv m h rd' := by
  cases rd with
  | load out pc log => exact hrd.next_load hi.outside hi.sound hno hnext
  | loadBounded out maxRetries frame log => exact hrd.next_loadBounded hi.outside hi.sound hno hnext
  | snapshot out k frame log => exact hrd.next_snapshot hi.outside hi.sound hno hnext
  | _ => simp [Reader.next] at hnext

omit [NeZero N] in
theorem Logged.empty : Logged h ⟨h.published.length, [], 0⟩ := ⟨Nat.le_refl _, by simp⟩

theorem ReaderInv.atEntry (c : ReadCall size) :
    ReaderInv m h (.atEntry h.published.length c) := by
  cases c with
  | load out => exact ⟨trivial, .empty, by simp [ReadPc.cursor?]⟩
  | loadBounded out maxRetries => exact ⟨trivial, .empty, by simp [ReadPc.cursor?]⟩
  | snapshot out k => exact ⟨trivial, .empty, by simp, by simp [ReadPc.cursor?]⟩

/-! ### Whole runs

The two halves move separately, so the step lemma has two cases: the writing side keeps what
every reader knows (`ReaderInv.rely`), and a reader keeps what it knows itself
(`ReaderInv.next`). -/

/-- The step condition under which answers can be trusted: the moving reader
does not span a reset. -/
def NoReadSpansReset (w : World N size ι) : Label size ι → Prop
  | .read r => ¬ SpansReset w.mem w.hist (w.readers r)
  | _ => True

instance (w : World N size ι) (l : Label size ι) : Decidable (NoReadSpansReset w l) :=
  match l with
  | .read r => inferInstanceAs (Decidable (¬ SpansReset w.mem w.hist (w.readers r)))
  | .callStore _ | .write | .kill | .callRepair | .call .. => .isTrue trivial

/-- Writing side and readers together. The bound on the calls is inside, so that it need not
hold of the states on the way. -/
def World.Answers (w : World N size ι) : Prop :=
  w.hist.calls < 2 ^ 63 → Inv w.mem w.hist w.writer ∧ ∀ r, ReaderInv w.mem w.hist (w.readers r)

theorem World.step_answers {w w' : World N size ι} {l : Label size ι}
    (hno : NoReadSpansReset w l) (hw : w.Answers) (h : w.step l = some w') : w'.Answers := by
  intro hcalls
  have hinv : Inv w'.mem w'.hist w'.writer := World.step_inv (fun hc => (hw hc).1) h hcalls
  refine ⟨hinv, ?_⟩
  cases hl : l.isWriting with
  | true =>
      obtain ⟨hmove, hreaders⟩ := World.step_writing h hl
      have hc : w.hist.calls < 2 ^ 63 := hmove.calls_le.trans_lt hcalls
      rw [hreaders]
      exact fun r => ((hw hc).2 r).rely (hmove.rely (hw hc).1 hc)
  | false =>
      obtain ⟨hm, hh, -, r, rd, hreaders, hcase⟩ := World.step_reading h hl
      rw [hh] at hcalls
      obtain ⟨hi, hr⟩ := hw hcalls
      rw [hm, hh, hreaders]
      intro r'
      by_cases hr' : r' = r
      · subst hr'
        rw [Function.update_self]
        rcases hcase with ⟨c, -, rfl⟩ | ⟨rfl, hnext⟩
        · exact .atEntry c
        · exact (hr r').next hi hno hnext
      · rw [Function.update_of_ne hr']
        exact hr r'

omit [DecidableEq ι] in
theorem World.init_answers : (World.init N size ι).Answers :=
  fun _ => ⟨Inv.init, fun _ => trivial⟩

/-- In a run without a read that spans a reset, every reader's knowledge is
right. -/
theorem World.run_answers {w : World N size ι} {ls : List (Label size ι)}
    (h : World.run ls = some w)
    (hno : Run.Steps World.step NoReadSpansReset (World.init N size ι) ls) : w.Answers :=
  Run.exec_invariant_of_steps World.step_answers hno World.init_answers h

end XmBase.Concurrency.SeqlockRing
