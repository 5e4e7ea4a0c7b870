import XmBase.Concurrency.RingAnswers
import XmBase.Concurrency.BoundedLoad
/-!
# XmBase.Concurrency.RingProgress

**Every failed iteration of a reader is paid for by the writer.** An iteration captures
the cursor `c` and reads the cell of position `c - 1`. The writing side touches the
in-flight cell only, so until `c + N - 1` stores are complete the captured cell is whole
and does not change, and the iteration cannot fail (`Paid.failed`). A failure therefore
costs `N - 1` stores after the capture, the next capture sees them, and over any number of
iterations they add up (`Toll`). For `N ≥ 2` a writer that stops leaves a reader at most
one more failure.

Kills and repairs are no exception: a reset, too, touches the in-flight cell only.
-/

namespace XmBase.Concurrency.SeqlockRing

variable {N size : Nat} [NeZero N] {ι : Type} [DecidableEq ι]
  {m m' : Mem N size} {h h' : History N size} {wr wr' : Writer size}

/-! ### Failed iterations

What is counted are iterations of the reader; what pays for them are stores of the writer.
The log has the captures of a call, one for each iteration, and `Toll` compares the first of
them with the cursor of now. -/

/-- The failed iterations of a call in progress. Every iteration begins with a capture,
and all but the one in progress have failed. -/
def failedAt (log : CallLog) (pc : ReadPc) : Nat :=
  if pc = .capture then log.captures.length else log.captures.length - 1

/-- The failed iterations of a `Load` or `LoadBounded` call, in progress or just returned,
and its log. In a call that answered, all have failed but the one that did. -/
def Reader.failures? : Reader size → Option (Nat × CallLog)
  | .load _ pc log => some (failedAt log pc, log)
  | .loadBounded _ _ frame log => some (failedAt log frame.pc, log)
  | .loaded _ log _ _ => some (log.captures.length - 1, log)
  | .loadedBounded _ log result _ =>
      some (if result = .kStalled then log.captures.length else log.captures.length - 1, log)
  | _ => none

/-- The cursor the call captured first. -/
def CallLog.first? (log : CallLog) : Option UInt64 := log.captures.getLast?

/-- `k` failures since the first capture have been paid for by the time the cursor is
`bound`. At depth one an iteration costs nothing, and nothing is claimed. -/
def Toll (N : Nat) (log : CallLog) (k bound : Nat) : Prop :=
  ∀ c, log.first? = some c → c.toNat + k * (N - 1) ≤ bound

/-- The position captured with `c` is less than a lap old. Then the store that is going on,
if any, goes to another cell. -/
def Fresh (N : Nat) (h : History N size) (c : UInt64) : Prop :=
  h.published.length + 1 < c.toNat + N

instance (h : History N size) (c : UInt64) : Decidable (Fresh N h c) :=
  inferInstanceAs (Decidable (_ < _))

/-- What an iteration knows of its capture `c`. -/
structure Iteration (h : History N size) (log : CallLog) (c : UInt64) : Prop where
  pos : 0 < c.toNat
  le : c.toNat ≤ h.published.length
  captured : log.captures ≠ []
  toll : Toll N log (log.captures.length - 1) c.toNat

/-- What a reading call knows at its program counter. At `capture` the last iteration is
paid for; inside one, all before it are, and the rest is conditional. -/
def Paid (m : Mem N size) (h : History N size) (log : CallLog) : ReadPc → Prop
  | .capture => Toll N log log.captures.length h.published.length
  | .first c => Iteration h log c
  | .index c s1 => Iteration h log c ∧ (Fresh N h c → m (.seq (readCell c 0)) = s1)
  | .copy c s1 idx _ => Iteration h log c ∧
      (Fresh N h c → m (.seq (readCell c 0)) = s1 ∧ idx = snapshotWant c 0)

/-! ### The captured cell

The captured position is the newest of its time, so its cell is the last the writer comes
back to. Until it does, the cell is none that a store or a reset touches. -/

omit [NeZero N] in
theorem Toll.mono {log : CallLog} {k b b' : Nat} (ht : Toll N log k b) (hb : b ≤ b') :
    Toll N log k b' :=
  fun c hc => (ht c hc).trans hb

omit [NeZero N] in
theorem Fresh.of_le {c : UInt64} (hf : Fresh N h' c)
    (hle : h.published.length ≤ h'.published.length) : Fresh N h c :=
  Nat.lt_of_le_of_lt (Nat.succ_le_succ hle) hf

/-- The captured cell is not the one in flight. -/
theorem Iteration.readCell_ne {log : CallLog} {c : UInt64} (hit : Iteration h log c)
    (hf : Fresh N h c) : (readCell c 0 : Fin N) ≠ cellOf h.published.length := by
  have hpos := hit.pos
  have hle := hit.le
  rw [Fresh] at hf
  rw [readCell, toNat_snapshotWant hit.pos]
  exact cellOf_ne (by omega) (by omega)

/-- The captured cell holds its position. It is less than a lap old, and nothing else is
being written there. -/
theorem Iteration.holds {log : CallLog} {c : UInt64} (hit : Iteration h log c) (hf : Fresh N h c)
    (ho : Outside m h.published) : ∃ v, Holds m (readCell c 0) (snapshotWant c 0).toNat v := by
  have hpos := hit.pos
  have hle := hit.le
  rw [Fresh] at hf
  have hwant := toNat_snapshotWant hit.pos
  have hlt : (snapshotWant c 0).toNat < h.published.length := by omega
  exact ⟨_, ho.held (List.getElem?_eq_getElem hlt) (by omega)⟩

/-- The writing side changes the sequence of the in-flight cell only. -/
theorem WriterMove.seq_frame (hmove : WriterMove m h wr m' h' wr') (hi : Inv m h wr) {j : Fin N}
    (hj : j ≠ cellOf h.published.length) : m' (.seq j) = m (.seq j) := by
  have hupdate {idx x : UInt64} (hidx : idx = m .writeCount) :
      Function.update m (.seq (cellOf idx.toNat)) x (.seq j) = m (.seq j) := by
    refine Function.update_of_ne (fun heq => hj ?_) _ _
    rw [Loc.seq.inj heq, hi.cell_eq hidx]
  cases hmove with
  | storeOdd v idx s => exact hupdate hi.phase.2.2.1
  | storeIndex v idx s => exact Function.update_of_ne (by simp) _ _
  | storeWord v idx s i hlt => exact Function.update_of_ne (by simp) _ _
  | storeEven v idx s i hge => exact hupdate hi.phase.1
  | storeCount v idx => exact Function.update_of_ne (by simp) _ _
  | reset idx => exact hupdate hi.phase
  | _ => rfl

/-! ### Stability

The writing side only publishes, so tolls that are paid stay paid. What a call knows of its
cell is conditional on the capture being fresh, and a move that ends the freshness ends the
claim with it. -/

omit [NeZero N] in
theorem Iteration.mono {log : CallLog} {c : UInt64} (hit : Iteration h log c)
    (hle : h.published.length ≤ h'.published.length) : Iteration h' log c :=
  { hit with le := hit.le.trans hle }

/-- What a call knows survives the writing side. -/
theorem Paid.move {log : CallLog} {pc : ReadPc} (hp : Paid m h log pc)
    (hmove : WriterMove m h wr m' h' wr') (hi : Inv m h wr)
    (hle : h.published.length ≤ h'.published.length) : Paid m' h' log pc := by
  cases pc with
  | capture => exact Toll.mono hp hle
  | first c => exact Iteration.mono hp hle
  | index c s1 =>
      obtain ⟨hit, hseq⟩ := hp
      refine ⟨hit.mono hle, fun hf => ?_⟩
      have hf' := hf.of_le hle
      rw [hmove.seq_frame hi (hit.readCell_ne hf')]
      exact hseq hf'
  | copy c s1 idx staged =>
      obtain ⟨hit, hseq⟩ := hp
      refine ⟨hit.mono hle, fun hf => ?_⟩
      have hf' := hf.of_le hle
      rw [hmove.seq_frame hi (hit.readCell_ne hf')]
      exact hseq hf'

/-! ### The call's own accesses

A failure of an iteration contradicts what it knows while its capture is fresh. So the
capture is stale, which is the price of one iteration, and the next capture begins from
there. -/

/-- A capture sees what has been paid so far. The stores paid so far are below the cursor
that is captured now. -/
theorem Paid.toll_capture {log : CallLog} (hp : Paid m h log .capture) (ho : Outside m h.published) :
    Toll N (log.note m h 0 .capture) log.captures.length (m .writeCount).toNat := by
  intro c hc
  cases hcap : log.captures with
  | nil =>
      simp only [CallLog.first?, CallLog.note, hcap, List.getLast?_singleton, Option.some.injEq] at hc
      simp [hc]
  | cons c' cs =>
      simp only [CallLog.first?, CallLog.note, hcap, List.getLast?_cons_cons] at hc
      have hpaid := hp c (by rw [CallLog.first?, hcap]; exact hc)
      rw [hcap] at hpaid
      rw [ho.count]
      exact hpaid

/-- The next iteration begins. What the last one cost is on the account, and the new capture
is fresh. -/
theorem Paid.captured {log : CallLog} (hp : Paid m h log .capture) (ho : Outside m h.published)
    (hne : m .writeCount ≠ 0) :
    Paid m h (log.note m h 0 .capture) (.first (m .writeCount)) where
  pos := (Word.ne_zero_iff _).mp hne
  le := ho.count.le
  captured := List.cons_ne_nil _ _
  toll := hp.toll_capture ho

theorem Iteration.note {log : CallLog} {c : UInt64} {pc : ReadPc} (hit : Iteration h log c)
    (hpc : pc ≠ .capture) : Iteration h (log.note m h 0 pc) c := by
  have hcap : (log.note m h 0 pc).captures = log.captures := CallLog.note_captures hpc
  refine ⟨hit.pos, hit.le, ?_, ?_⟩
  · rw [hcap]
    exact hit.captured
  · simp only [Toll, CallLog.first?, hcap]
    exact hit.toll

theorem Paid.progress {log : CallLog} {pc pc' : ReadPc} (hp : Paid m h log pc)
    (ho : Outside m h.published) (hobs : observe m 0 pc = .progress pc') :
    Paid m h (log.note m h 0 pc) pc' := by
  cases pc with
  | capture => simp [observe] at hobs
  | first c =>
      simp only [observe] at hobs
      split_ifs at hobs
      obtain rfl := Outcome.progress.inj hobs
      exact ⟨Iteration.note hp (by simp), fun _ => rfl⟩
  | index c s1 =>
      obtain rfl := Outcome.progress.inj hobs
      obtain ⟨hit, hseq⟩ := hp
      refine ⟨hit.note (by simp), fun hf => ⟨hseq hf, ?_⟩⟩
      obtain ⟨v, hholds⟩ := hit.holds hf ho
      exact UInt64.toNat_inj.mp hholds.index
  | copy c s1 idx staged =>
      simp only [observe] at hobs
      split_ifs at hobs
      obtain rfl := Outcome.progress.inj hobs
      exact ⟨hp.1.note (by simp), hp.2⟩

/-- A capture that is a lap old pays for the failure of its iteration. -/
theorem Iteration.stale {log : CallLog} {c : UInt64} (hit : Iteration h log c)
    (hf : ¬ Fresh N h c) : Toll N log log.captures.length h.published.length := by
  intro c0 hc0
  have hpaid := hit.toll c0 hc0
  have hN := Nat.pos_of_neZero N
  have hlen := List.length_pos_of_ne_nil hit.captured
  have hmul : log.captures.length * (N - 1) = (log.captures.length - 1) * (N - 1) + (N - 1) := by
    rw [← Nat.succ_mul, Nat.succ_eq_add_one, Nat.sub_add_cancel hlen]
  rw [Fresh] at hf
  omega

/-- An iteration with a fresh capture does not fail. Its cell is neither in flight nor
overwritten, so both loads find the same sequence. -/
theorem Paid.not_fresh {log : CallLog} {pc : ReadPc} (hp : Paid m h log pc)
    (ho : Outside m h.published) (hobs : observe m 0 pc = .odd ∨ observe m 0 pc = .invalid) :
    ∃ c, pc.cursor? = some c ∧ Iteration h log c ∧ ¬ Fresh N h c := by
  cases pc with
  | capture => simp [observe] at hobs
  | first c =>
      refine ⟨c, rfl, hp, fun hf => ?_⟩
      obtain ⟨v, hholds⟩ := Iteration.holds hp hf ho
      have heven : ¬ m (.seq (readCell c 0)) &&& 1 ≠ 0 := by
        rw [Word.and_one_ne_zero, hholds.seq_even]
        exact Nat.zero_ne_one
      simp only [observe, if_neg hholds.seq_ne, if_neg heven] at hobs
      simp at hobs
  | index c s1 => simp [observe] at hobs
  | copy c s1 idx staged =>
      refine ⟨c, rfl, hp.1, fun hf => ?_⟩
      simp only [observe] at hobs
      split_ifs at hobs with hlt hvalid
      · simp at hobs
      · simp at hobs
      · exact hvalid (hp.2 hf)

/-- **A failed iteration has cost `N - 1` stores.** It failed because its cell came into
flight after its capture, and for that the writer had to go round. -/
theorem Paid.failed {log : CallLog} {pc : ReadPc} (hp : Paid m h log pc)
    (ho : Outside m h.published) (hobs : observe m 0 pc = .odd ∨ observe m 0 pc = .invalid) :
    Paid m h (log.note m h 0 pc) .capture := by
  obtain ⟨c, hcur, hit, hf⟩ := hp.not_fresh ho hobs
  have hpc : pc ≠ .capture := by
    rintro rfl
    cases hcur
  exact (hit.note hpc).stale hf

/-- A call that answers has paid for its other iterations. -/
theorem Paid.answered {log : CallLog} {pc : ReadPc} (hp : Paid m h log pc)
    (ho : Outside m h.published) :
    Toll N (log.note m h 0 pc) ((log.note m h 0 pc).captures.length - 1) h.published.length := by
  cases pc with
  | capture =>
      have hpaid := hp.toll_capture ho
      rw [ho.count] at hpaid
      exact hpaid
  | first c => exact (Iteration.note hp (by simp)).toll.mono hp.le
  | index c s1 => exact (Iteration.note hp.1 (by simp)).toll.mono hp.1.le
  | copy c s1 idx staged => exact (Iteration.note hp.1 (by simp)).toll.mono hp.1.le

/-! ### Readers

The two read-latest verbs keep the same account. `LoadBounded` has a counter of its own
besides, which the account bounds from below. -/

/-- What is known of a reader. The counter of `LoadBounded` counts failed iterations, up
to the wrap. -/
def ReaderPaid (m : Mem N size) (h : History N size) : Reader size → Prop
  | .load _ pc log => Logged h log ∧ Paid m h log pc
  | .loadBounded _ maxRetries frame log => Logged h log ∧ Paid m h log frame.pc ∧
      frame.attempt ≤ maxRetries ∧ frame.attempt.toNat ≤ failedAt log frame.pc
  | .loaded _ log _ _ => Toll N log (log.captures.length - 1) h.published.length
  | .loadedBounded _ log result _ =>
      Toll N log (if result = .kStalled then log.captures.length else log.captures.length - 1)
        h.published.length
  | _ => True

theorem ReaderPaid.move {rd : Reader size} (hrd : ReaderPaid m h rd)
    (hmove : WriterMove m h wr m' h' wr') (hi : Inv m h wr) (hr : Rely m h m' h') :
    ReaderPaid m' h' rd := by
  have hle := hr.published.length_le
  cases rd with
  | load out pc log => exact ⟨hrd.1.rely hr, hrd.2.move hmove hi hle⟩
  | loadBounded out maxRetries frame log =>
      exact ⟨hrd.1.rely hr, hrd.2.1.move hmove hi hle, hrd.2.2⟩
  | loaded out log found out' => exact Toll.mono hrd hle
  | loadedBounded out log result out' => exact Toll.mono hrd hle
  | idle => trivial
  | snapshot out k frame log => trivial
  | snapped out k log ended n out' => trivial

theorem ReaderPaid.atEntry (c : ReadCall size) :
    ReaderPaid m h (.atEntry h.published.length c) := by
  have htoll : Toll N ⟨h.published.length, [], 0⟩ 0 h.published.length := nofun
  cases c with
  | load out => exact ⟨Logged.empty, htoll⟩
  | loadBounded out maxRetries =>
      exact ⟨Logged.empty, htoll, UInt32.le_iff_toNat_le.mpr (Nat.zero_le _), Nat.le_refl _⟩
  | snapshot out k => trivial

/-- `Load` at an access. -/
theorem ReaderPaid.next_load {out : Payload size} {pc : ReadPc} {log : CallLog} {rd' : Reader size}
    (hrd : ReaderPaid m h (.load out pc log)) (ho : Outside m h.published)
    (hnext : (Reader.load out pc log).next m h = some rd') : ReaderPaid m h rd' := by
  obtain ⟨hlog, hp⟩ := hrd
  obtain rfl := Option.some.inj hnext
  have hlog' : Logged h (log.note m h 0 pc) := hlog.note ho
  have hanswer := hp.answered ho
  cases hobs : observe m 0 pc with
  | captured c =>
      obtain ⟨rfl, rfl⟩ := observe_captured hobs
      by_cases h0 : m .writeCount = 0
      · simp only [loadOn, if_pos h0]
        exact hanswer
      · simp only [loadOn, if_neg h0]
        exact ⟨hlog', hp.captured ho h0⟩
  | zero => exact hanswer
  | odd => exact ⟨hlog', hp.failed ho (.inl hobs)⟩
  | invalid => exact ⟨hlog', hp.failed ho (.inr hobs)⟩
  | progress pc' => exact ⟨hlog', hp.progress ho hobs⟩
  | valid c staged => exact hanswer

omit [NeZero N] in
theorem toNat_succ_le (attempt : UInt32) : (attempt + 1).toNat ≤ attempt.toNat + 1 := by
  rw [UInt32.toNat_add]
  exact Nat.mod_le _ _

/-- An iteration that is not at its capture counts its captures but one as failed. -/
theorem Paid.failedAt_succ {log : CallLog} {pc : ReadPc} (hp : Paid m h log pc)
    (hpc : pc ≠ .capture) : failedAt log pc + 1 = log.captures.length := by
  have hcaptured : log.captures ≠ [] := by
    cases pc with
    | capture => exact absurd rfl hpc
    | first c => exact Iteration.captured hp
    | index c s1 => exact hp.1.captured
    | copy c s1 idx staged => exact hp.1.captured
  rw [failedAt, if_neg hpc, Nat.sub_add_cancel (List.length_pos_of_ne_nil hcaptured)]

/-- A failed attempt of `LoadBounded`, retried or given up. -/
theorem ReaderPaid.boundedRetry {out : Payload size} {maxRetries attempt : UInt32} {log : CallLog}
    (hlog : Logged h log) (hp : Paid m h log .capture)
    (hcount : attempt.toNat + 1 ≤ log.captures.length) :
    ReaderPaid m h (match SeqlockRing.boundedRetry out maxRetries attempt with
      | .inl frame' => .loadBounded out maxRetries frame' log
      | .inr (result, out') => .loadedBounded out log result out') := by
  unfold SeqlockRing.boundedRetry
  split_ifs with hle
  · exact ⟨hlog, hp, hle, (toNat_succ_le attempt).trans hcount⟩
  · exact hp

/-- `LoadBounded` at an access. -/
theorem ReaderPaid.next_loadBounded {out : Payload size} {maxRetries : UInt32}
    {frame : BoundedFrame} {log : CallLog} {rd' : Reader size}
    (hrd : ReaderPaid m h (.loadBounded out maxRetries frame log)) (ho : Outside m h.published)
    (hnext : (Reader.loadBounded out maxRetries frame log).next m h = some rd') :
    ReaderPaid m h rd' := by
  obtain ⟨attempt, pc⟩ := frame
  obtain ⟨hlog, hp, hle, hcount⟩ := hrd
  obtain rfl := Option.some.inj hnext
  have hlog' : Logged h (log.note m h 0 pc) := hlog.note ho
  have hanswer := hp.answered ho
  have hretry (hobs : observe m 0 pc = .odd ∨ observe m 0 pc = .invalid) :
      attempt.toNat + 1 ≤ (log.note m h 0 pc).captures.length := by
    obtain ⟨c, hcur, -⟩ := hp.not_fresh ho hobs
    have hpc : pc ≠ .capture := by
      rintro rfl
      cases hcur
    rw [CallLog.note_captures hpc, ← hp.failedAt_succ hpc]
    exact Nat.succ_le_succ hcount
  cases hobs : observe m 0 pc with
  | captured c =>
      obtain ⟨rfl, rfl⟩ := observe_captured hobs
      by_cases h0 : m .writeCount = 0
      · simp only [loadBoundedOn, if_pos h0]
        exact hanswer
      · simp only [loadBoundedOn, if_neg h0]
        exact ⟨hlog', hp.captured ho h0, hle, hcount⟩
  | zero => exact hanswer
  | odd => exact .boundedRetry hlog' (hp.failed ho (.inl hobs)) (hretry (.inl hobs))
  | invalid => exact .boundedRetry hlog' (hp.failed ho (.inr hobs)) (hretry (.inr hobs))
  | progress pc' =>
      obtain ⟨hcur, hpc⟩ := observe_progress_cursor hobs
      have hpc' : pc' ≠ .capture := by
        rintro rfl
        cases pc <;> simp [ReadPc.cursor?] at hcur hpc
      refine ⟨hlog', hp.progress ho hobs, hle, ?_⟩
      rw [failedAt, if_neg hpc', CallLog.note_captures hpc]
      rw [failedAt, if_neg hpc] at hcount
      exact hcount
  | valid c staged => exact hanswer

theorem ReaderPaid.next {rd rd' : Reader size} (hrd : ReaderPaid m h rd) (hi : Inv m h wr)
    (hnext : rd.next m h = some rd') : ReaderPaid m h rd' := by
  cases rd with
  | load out pc log => exact hrd.next_load hi.outside hnext
  | loadBounded out maxRetries frame log => exact hrd.next_loadBounded hi.outside hnext
  | snapshot out k frame log =>
      obtain ⟨taken, buf, pc⟩ := frame
      obtain rfl := Option.some.inj hnext
      split <;> trivial
  | _ => simp [Reader.next] at hnext

/-! ### Runs -/

/-- Writing side and readers together. -/
def World.Paid (w : World N size ι) : Prop :=
  w.hist.calls < 2 ^ 63 → Inv w.mem w.hist w.writer ∧ ∀ r, ReaderPaid w.mem w.hist (w.readers r)

theorem World.step_paid {w w' : World N size ι} {l : Label size ι} (hw : w.Paid)
    (h : w.step l = some w') : w'.Paid := by
  intro hcalls
  have hinv : Inv w'.mem w'.hist w'.writer := World.step_inv (fun hc => (hw hc).1) h hcalls
  refine ⟨hinv, ?_⟩
  cases hl : l.isWriting with
  | true =>
      obtain ⟨hmove, hreaders⟩ := World.step_writing h hl
      have hc : w.hist.calls < 2 ^ 63 := hmove.calls_le.trans_lt hcalls
      obtain ⟨hi, hr⟩ := hw hc
      rw [hreaders]
      exact fun r => (hr r).move hmove hi (hmove.rely hi hc)
  | false =>
      obtain ⟨hm, hh, -, r, rd, hreaders, hcase⟩ := World.step_reading h hl
      rw [hh] at hcalls
      obtain ⟨hi, hr⟩ := hw hcalls
      rw [hm, hh, hreaders]
      intro r'
      by_cases hr' : r' = r
      · subst hr'
        rw [Function.update_self]
        rcases hcase with ⟨c, -, rfl⟩ | ⟨rfl, hnext⟩
        · exact .atEntry c
        · exact (hr r').next hi hnext
      · rw [Function.update_of_ne hr']
        exact hr r'

omit [DecidableEq ι] in
theorem World.init_paid : (World.init N size ι).Paid :=
  fun _ => ⟨Inv.init, fun _ => trivial⟩

theorem World.run_paid {w : World N size ι} {ls : List (Label size ι)}
    (h : World.run ls = some w) : w.Paid :=
  Run.exec_invariant World.step_paid World.init_paid h

theorem Paid.toll {log : CallLog} {pc : ReadPc} (hp : Paid m h log pc) :
    Toll N log (failedAt log pc) h.published.length := by
  cases pc with
  | capture => exact hp
  | first c => exact Toll.mono (Iteration.toll hp) (Iteration.le hp)
  | index c s1 => exact hp.1.toll.mono hp.1.le
  | copy c s1 idx staged => exact hp.1.toll.mono hp.1.le

/-- The failures of a call so far are paid for. The one in progress has not failed yet, and
is not counted. -/
theorem ReaderPaid.toll {rd : Reader size} {k : Nat} {log : CallLog} (hrd : ReaderPaid m h rd)
    (hk : rd.failures? = some (k, log)) : Toll N log k h.published.length := by
  cases rd with
  | load out pc log' =>
      obtain ⟨rfl, rfl⟩ := Prod.mk.inj (Option.some.inj hk)
      exact hrd.2.toll
  | loadBounded out maxRetries frame log' =>
      obtain ⟨rfl, rfl⟩ := Prod.mk.inj (Option.some.inj hk)
      exact hrd.2.1.toll
  | loaded out log' found out' =>
      obtain ⟨rfl, rfl⟩ := Prod.mk.inj (Option.some.inj hk)
      exact hrd
  | loadedBounded out log' result out' =>
      obtain ⟨rfl, rfl⟩ := Prod.mk.inj (Option.some.inj hk)
      exact hrd
  | _ => simp [Reader.failures?] at hk

/-! ### Giving up

Only the last of `max_retries + 1` attempts gives up, and each of them has failed. With the
toll of an attempt this bounds from below what the writer did meanwhile. -/

/-- Only a failed attempt gives up, and only on the last retry. -/
theorem last_attempt_of_stalled {out out' out'' : Payload size} {maxRetries attempt : UInt32}
    {pc : ReadPc} {log log' : CallLog}
    (hnext : (Reader.loadBounded out maxRetries ⟨attempt, pc⟩ log).next m h =
      some (.loadedBounded out' log' .kStalled out'')) :
    (observe m 0 pc = .odd ∨ observe m 0 pc = .invalid) ∧ ¬ attempt + 1 ≤ maxRetries := by
  have hinj := Option.some.inj hnext
  have hretry (hon : loadBoundedOn out maxRetries attempt (observe m 0 pc) =
      boundedRetry out maxRetries attempt) : ¬ attempt + 1 ≤ maxRetries := by
    intro hle
    rw [hon, boundedRetry, if_pos hle] at hinj
    cases hinj
  cases hobs : observe m 0 pc with
  | odd => exact ⟨.inl rfl, hretry (by rw [hobs]; rfl)⟩
  | invalid => exact ⟨.inr rfl, hretry (by rw [hobs]; rfl)⟩
  | captured c =>
      simp only [hobs, loadBoundedOn] at hinj
      split_ifs at hinj
      all_goals simp at hinj
  | zero => simp [hobs, loadBoundedOn] at hinj
  | progress pc' => simp [hobs, loadBoundedOn] at hinj
  | valid c staged => simp [hobs, loadBoundedOn] at hinj

/-- A `LoadBounded` that gives up has had its whole budget paid for since it was called. -/
theorem ReaderPaid.stalled {out out' out'' : Payload size} {maxRetries : UInt32} {frame : BoundedFrame}
    {log log' : CallLog} (hrd : ReaderPaid m h (.loadBounded out maxRetries frame log))
    (ho : Outside m h.published)
    (hnext : (Reader.loadBounded out maxRetries frame log).next m h =
      some (.loadedBounded out' log' .kStalled out'')) :
    log.start + (maxRetries.toNat + 1) * (N - 1) ≤ h.published.length := by
  obtain ⟨attempt, pc⟩ := frame
  obtain ⟨hlog, hp, -, hcount⟩ : Logged h log ∧ Paid m h log pc ∧ attempt ≤ maxRetries ∧
    attempt.toNat ≤ failedAt log pc := hrd
  obtain ⟨hobs, hlast⟩ := last_attempt_of_stalled hnext
  obtain ⟨c, hcur, hit, hf⟩ := hp.not_fresh ho hobs
  have hpc : pc ≠ .capture := by
    rintro rfl
    cases hcur
  have hbudget : maxRetries.toNat ≤ attempt.toNat := by
    rw [UInt32.le_iff_toNat_le] at hlast
    have := toNat_succ_le attempt
    omega
  have hfailed := hp.failedAt_succ hpc
  have hfirst : log.first? = some (log.captures.getLast hit.captured) :=
    List.getLast?_eq_some_getLast hit.captured
  have hstart := (hlog.captures _ (List.getLast_mem hit.captured)).1
  calc log.start + (maxRetries.toNat + 1) * (N - 1)
      ≤ (log.captures.getLast hit.captured).toNat + log.captures.length * (N - 1) :=
        Nat.add_le_add hstart (Nat.mul_le_mul_right _ (by omega))
    _ ≤ h.published.length := hit.stale hf _ hfirst

/-! ### A writer that stops

If the writing side does not move, a capture is as fresh at the end of an iteration as it
was at its start, and the next capture is fresh. So at most one iteration can still fail,
and the accesses left are bounded by those of two. -/

/-- The program counter of a `Load` or `LoadBounded` in progress. -/
def Reader.retryPc? : Reader size → Option ReadPc
  | .load _ pc _ => some pc
  | .loadBounded _ _ frame _ => some frame.pc
  | _ => none

/-- The accesses a call can still make if the writer does not move: those of its
iteration, and those of one more if its capture is a lap old. -/
def accessesLeft (h : History N size) (pc : ReadPc) : Nat :=
  pc.left size + match pc.cursor? with
    | some c => if Fresh N h c then 0 else kWords size + 4
    | none => 0

theorem left_pos (size : Nat) (pc : ReadPc) : 0 < pc.left size := by
  cases pc <;> exact Nat.succ_pos _

theorem observe_progress_left {pc pc' : ReadPc} (hobs : observe m 0 pc = .progress pc') :
    pc'.left size < pc.left size := by
  cases pc with
  | capture => simp [observe] at hobs
  | first c =>
      simp only [observe] at hobs
      split_ifs at hobs
      obtain rfl := Outcome.progress.inj hobs
      exact Nat.lt_succ_self _
  | index c s1 =>
      obtain rfl := Outcome.progress.inj hobs
      exact Nat.lt_succ_self _
  | copy c s1 idx staged =>
      simp only [observe] at hobs
      split_ifs at hobs with hlt
      obtain rfl := Outcome.progress.inj hobs
      simp only [ReadPc.left, List.length_append, List.length_singleton]
      omega

/-- The call goes on at `pc'` after the outcome of an access: within the iteration, into
it, or back to its start. -/
inductive GoesOn : Outcome → ReadPc → Prop
  | progress (pc' : ReadPc) : GoesOn (.progress pc') pc'
  | captured (c : UInt64) : GoesOn (.captured c) (.first c)
  | odd : GoesOn .odd .capture
  | invalid : GoesOn .invalid .capture

omit [NeZero N] in
theorem goesOn_of_loadOn {out : Payload size} {o : Outcome} {pc' : ReadPc}
    (hon : loadOn out o = .inl pc') : GoesOn o pc' := by
  cases o with
  | captured c =>
      simp only [loadOn] at hon
      split_ifs at hon
      obtain rfl := Sum.inl.inj hon
      exact .captured c
  | zero => cases hon
  | odd => obtain rfl := Sum.inl.inj hon; exact .odd
  | invalid => obtain rfl := Sum.inl.inj hon; exact .invalid
  | progress pc => obtain rfl := Sum.inl.inj hon; exact .progress pc
  | valid c staged => cases hon

omit [NeZero N] in
theorem goesOn_of_loadBoundedOn {out : Payload size} {maxRetries attempt : UInt32} {o : Outcome}
    {frame : BoundedFrame} (hon : loadBoundedOn out maxRetries attempt o = .inl frame) :
    GoesOn o frame.pc := by
  have hretry (hb : boundedRetry out maxRetries attempt = .inl frame) : frame.pc = .capture := by
    rw [boundedRetry] at hb
    split_ifs at hb
    obtain rfl := Sum.inl.inj hb
    rfl
  cases o with
  | captured c =>
      simp only [loadBoundedOn] at hon
      split_ifs at hon
      obtain rfl := Sum.inl.inj hon
      exact .captured c
  | zero => cases hon
  | odd => rw [hretry hon]; exact .odd
  | invalid => rw [hretry hon]; exact .invalid
  | progress pc => obtain rfl := Sum.inl.inj hon; exact .progress pc
  | valid c staged => cases hon

section

variable (hN : 2 ≤ N)

include hN

/-- On memory that does not move, a call that goes on uses up accesses. -/
theorem Paid.accessesLeft_lt {log : CallLog} {pc pc' : ReadPc} (hp : Paid m h log pc)
    (ho : Outside m h.published) (hgoes : GoesOn (observe m 0 pc) pc') :
    accessesLeft h pc' < accessesLeft h pc := by
  have hagain (hobs : observe m 0 pc = .odd ∨ observe m 0 pc = .invalid) :
      accessesLeft h .capture < accessesLeft h pc := by
    obtain ⟨c, hcur, -, hf⟩ := hp.not_fresh ho hobs
    have hpos := left_pos size pc
    rw [accessesLeft, accessesLeft, hcur]
    show kWords size + 4 + 0 < pc.left size + if Fresh N h c then 0 else kWords size + 4
    rw [if_neg hf]
    omega
  cases hobs : observe m 0 pc with
  | progress pc₁ =>
      rw [hobs] at hgoes
      cases hgoes
      obtain ⟨hcur, -⟩ := observe_progress_cursor hobs
      rw [accessesLeft, accessesLeft, hcur]
      exact Nat.add_lt_add_right (observe_progress_left hobs) _
  | captured c =>
      rw [hobs] at hgoes
      cases hgoes
      obtain ⟨rfl, rfl⟩ := observe_captured hobs
      have hf : Fresh N h (m .writeCount) := by
        rw [Fresh, ho.count]
        omega
      simp only [accessesLeft, ReadPc.cursor?, if_pos hf, ReadPc.left]
      omega
  | odd =>
      rw [hobs] at hgoes
      cases hgoes
      exact hagain (.inl hobs)
  | invalid =>
      rw [hobs] at hgoes
      cases hgoes
      exact hagain (.inr hobs)
  | zero => rw [hobs] at hgoes; cases hgoes
  | valid c staged => rw [hobs] at hgoes; cases hgoes

theorem ReaderPaid.accessesLeft_lt {rd rd' : Reader size} {pc pc' : ReadPc}
    (hrd : ReaderPaid m h rd) (ho : Outside m h.published) (hpc : rd.retryPc? = some pc)
    (hnext : rd.next m h = some rd') (hpc' : rd'.retryPc? = some pc') :
    accessesLeft h pc' < accessesLeft h pc := by
  cases rd with
  | load out pc₀ log =>
      obtain rfl := Option.some.inj hpc
      obtain rfl := Option.some.inj hnext
      refine Paid.accessesLeft_lt hN hrd.2 ho ?_
      cases hon : loadOn out (observe m 0 pc₀) with
      | inl pc₁ =>
          rw [hon] at hpc'
          obtain rfl := Option.some.inj hpc'
          exact goesOn_of_loadOn hon
      | inr a => simp [hon, Reader.retryPc?] at hpc'
  | loadBounded out maxRetries frame log =>
      obtain rfl := Option.some.inj hpc
      obtain rfl := Option.some.inj hnext
      refine Paid.accessesLeft_lt hN hrd.2.1 ho ?_
      cases hon : loadBoundedOn out maxRetries frame.attempt (observe m 0 frame.pc) with
      | inl frame₁ =>
          rw [hon] at hpc'
          obtain rfl := Option.some.inj hpc'
          exact goesOn_of_loadBoundedOn hon
      | inr a => simp [hon, Reader.retryPc?] at hpc'
  | _ => simp [Reader.retryPc?] at hpc

end

/-- The label is an access of reader `r`. -/
def Label.isReadOf (r : ι) : Label size ι → Bool
  | .read r' => r' = r
  | _ => false

/-- The label neither moves the writing side nor makes reader `r` call. -/
def Label.leavesCall (r : ι) : Label size ι → Bool
  | .read _ => true
  | .call r' _ => r' ≠ r
  | _ => false

theorem Label.isWriting_of_leavesCall {r : ι} {l : Label size ι} (hl : l.leavesCall r = true) :
    l.isWriting = false := by
  cases l <;> simp_all [Label.leavesCall, Label.isWriting]

/-- What a step without the writer does to reader `r`: nothing, or its next access. -/
theorem World.step_leavesCall {w w' : World N size ι} {l : Label size ι} {r : ι}
    (hl : l.leavesCall r = true) (h : w.step l = some w') :
    w'.mem = w.mem ∧ w'.hist = w.hist ∧
      ((l.isReadOf r = false ∧ w'.readers r = w.readers r) ∨
        (l.isReadOf r = true ∧ (w.readers r).next w.mem w.hist = some (w'.readers r))) := by
  obtain ⟨hm, hh, -, r', rd, hreaders, hcase⟩ :=
    World.step_reading h (Label.isWriting_of_leavesCall hl)
  refine ⟨hm, hh, ?_⟩
  rcases hcase with ⟨c, rfl, -⟩ | ⟨rfl, hnext⟩
  · have hne : r ≠ r' := by
      intro heq
      simp [Label.leavesCall, heq] at hl
    rw [hreaders, Function.update_of_ne hne]
    exact .inl ⟨rfl, rfl⟩
  · by_cases hr : r = r'
    · subst hr
      rw [hreaders, Function.update_self]
      exact .inr ⟨by simp [Label.isReadOf], hnext⟩
    · rw [hreaders, Function.update_of_ne hr]
      exact .inl ⟨by simp [Label.isReadOf, Ne.symm hr], rfl⟩

/-- A reader that is not retrying does not begin to without a call. -/
theorem Reader.retryPc?_next {rd rd' : Reader size} (hnone : rd.retryPc? = none)
    (hnext : rd.next m h = some rd') : rd'.retryPc? = none := by
  cases rd with
  | snapshot out k frame log =>
      obtain ⟨taken, buf, pc⟩ := frame
      obtain rfl := Option.some.inj hnext
      split <;> rfl
  | load out pc log => cases hnone
  | loadBounded out maxRetries frame log => cases hnone
  | _ => simp [Reader.next] at hnext

theorem World.retryPc?_exec {w w' : World N size ι} {ls : List (Label size ι)} {r : ι}
    (hls : ∀ l ∈ ls, l.leavesCall r = true) (hnone : (w.readers r).retryPc? = none)
    (h : Run.exec World.step w ls = some w') : (w'.readers r).retryPc? = none := by
  refine Run.exec_invariant_of_steps (C := fun _ l => l.leavesCall r = true)
    (I := fun w : World N size ι => (w.readers r).retryPc? = none) (fun hl hnone hstep => ?_)
    (Run.steps_of_forall_mem hls w) hnone h
  obtain ⟨-, -, ⟨-, hsame⟩ | ⟨-, hnext⟩⟩ := World.step_leavesCall hl hstep
  · rw [hsame]
    exact hnone
  · exact Reader.retryPc?_next hnone hnext

/-- While the writer does not move, a call in progress uses up its accesses. -/
theorem World.accesses_exec (hN : 2 ≤ N) {r : ι} {ls : List (Label size ι)} :
    ∀ {w w' : World N size ι} {pc pc' : ReadPc}, w.Paid → w.hist.calls < 2 ^ 63 →
      (∀ l ∈ ls, l.leavesCall r = true) → Run.exec World.step w ls = some w' →
      (w.readers r).retryPc? = some pc → (w'.readers r).retryPc? = some pc' →
      accessesLeft w'.hist pc' + ls.countP (Label.isReadOf r) ≤ accessesLeft w.hist pc := by
  induction ls with
  | nil =>
      intro w w' pc pc' _ _ _ h hpc hpc'
      obtain rfl := Option.some.inj h
      obtain rfl := Option.some.inj (hpc.symm.trans hpc')
      exact Nat.le_refl _
  | cons l ls ih =>
      intro w w' pc pc' hw hcalls hls h hpc hpc'
      obtain ⟨w₁, h₁, h₂⟩ := Run.exec_cons_eq_some.mp h
      obtain ⟨hl, hls'⟩ := List.forall_mem_cons.mp hls
      obtain ⟨hm, hh, hcase⟩ := World.step_leavesCall hl h₁
      have hw₁ := World.step_paid hw h₁
      have hcalls₁ : w₁.hist.calls < 2 ^ 63 := by
        rw [hh]
        exact hcalls
      rcases hcase with ⟨hno, hsame⟩ | ⟨hyes, hnext⟩
      · rw [List.countP_cons_of_neg (by simp [hno]), ← hh]
        exact ih hw₁ hcalls₁ hls' h₂ (by rw [hsame]; exact hpc) hpc'
      · cases hpc₁ : (w₁.readers r).retryPc? with
        | none =>
            rw [World.retryPc?_exec hls' hpc₁ h₂] at hpc'
            cases hpc'
        | some pc₁ =>
            have hrest := ih hw₁ hcalls₁ hls' h₂ hpc₁ hpc'
            obtain ⟨hi, hr⟩ := hw hcalls
            have hlt := (hr r).accessesLeft_lt hN hi.outside hpc hnext hpc₁
            rw [List.countP_cons_of_pos (by simp [hyes])]
            rw [hh] at hrest
            omega

omit [NeZero N] in
theorem accessesLeft_le (h : History N size) (pc : ReadPc) :
    accessesLeft h pc ≤ 2 * (kWords size + 4) := by
  have hleft : pc.left size ≤ kWords size + 4 := by
    cases pc <;> simp only [ReadPc.left] <;> omega
  have hagain : (match pc.cursor? with
      | some c => if Fresh N h c then 0 else kWords size + 4
      | none => 0) ≤ kWords size + 4 := by
    split
    · split
      · exact Nat.zero_le _
      · exact Nat.le_refl _
    · exact Nat.zero_le _
  rw [accessesLeft]
  omega

/-- A `LoadBounded` called when `n` stores were complete has not given up. -/
def NotStalled (n : Nat) : Reader size → Prop
  | .loadBounded _ _ _ log => log.start = n
  | .loadedBounded _ _ result _ => result ≠ .kStalled
  | _ => False

theorem NotStalled.next (hN : 2 ≤ N) {rd rd' : Reader size}
    (hns : NotStalled h.published.length rd) (hrd : ReaderPaid m h rd) (ho : Outside m h.published)
    (hnext : rd.next m h = some rd') : NotStalled h.published.length rd' := by
  cases rd with
  | loadBounded out maxRetries frame log =>
      have hstart : log.start = h.published.length := hns
      cases hon : loadBoundedOn out maxRetries frame.attempt (observe m 0 frame.pc) with
      | inl frame' =>
          have hrd' : rd' = .loadBounded out maxRetries frame' (log.note m h 0 frame.pc) := by
            rw [← Option.some.inj hnext, hon]
          rw [hrd', NotStalled, CallLog.note_start]
          exact hstart
      | inr a =>
          obtain ⟨result, out'⟩ := a
          have hrd' : rd' = .loadedBounded out (log.note m h 0 frame.pc) result out' := by
            rw [← Option.some.inj hnext, hon]
          subst hrd'
          intro hstalled
          rw [hstalled] at hnext
          have hpaid := hrd.stalled ho hnext
          have hpos : 0 < (maxRetries.toNat + 1) * (N - 1) :=
            Nat.mul_pos (Nat.succ_pos _) (by omega)
          omega
  | loadedBounded out log result out' => simp [Reader.next] at hnext
  | _ => exact hns.elim

/-- Nobody gives up while nothing is published. -/
theorem World.notStalled_exec (hN : 2 ≤ N) {w w' : World N size ι} {ls : List (Label size ι)} {r : ι}
    (hw : w.Paid) (hcalls : w.hist.calls < 2 ^ 63) (hls : ∀ l ∈ ls, l.leavesCall r = true)
    (hns : NotStalled w.hist.published.length (w.readers r))
    (h : Run.exec World.step w ls = some w') :
    NotStalled w'.hist.published.length (w'.readers r) := by
  refine (Run.exec_invariant_of_steps (C := fun _ l => l.leavesCall r = true)
    (I := fun w : World N size ι => (w.Paid ∧ w.hist.calls < 2 ^ 63) ∧
      NotStalled w.hist.published.length (w.readers r)) ?_
    (Run.steps_of_forall_mem hls w) ⟨⟨hw, hcalls⟩, hns⟩ h).2
  rintro s l s' hl ⟨⟨hs, hcalls⟩, hns⟩ hstep
  obtain ⟨-, hh, hcase⟩ := World.step_leavesCall hl hstep
  refine ⟨⟨World.step_paid hs hstep, by rw [hh]; exact hcalls⟩, ?_⟩
  rw [hh]
  rcases hcase with ⟨-, hsame⟩ | ⟨-, hnext⟩
  · rw [hsame]
    exact hns
  · obtain ⟨hi, hr⟩ := hs hcalls
    exact hns.next hN (hr r) hi.outside hnext

/-! ### Retries and progress

The clauses of the result come from the sections above, one from each: the toll of the
failures, the price of giving up, and the accesses left when the writer stops. -/

/-- **Retries are paid for by writer progress.** In every run, a call with `k` failed
iterations has seen the cursor advance by `k * (N - 1)` since its first capture. So, with
two cells or more, `LoadBounded` gives up only after `(maxRetries + 1) * (N - 1)` stores
were completed since it was called; and once the writer has stopped, wherever it stands, a
call in progress makes a bounded number of accesses and a new `LoadBounded` does not give
up, whatever the other readers do. -/
theorem retries_paid_for {w : World N size ι} {ls : List (Label size ι)}
    (hrun : World.run ls = some w) (hcalls : w.hist.calls < 2 ^ 63) (r : ι) :
    (∀ k log c, (w.readers r).failures? = some (k, log) → log.first? = some c →
      c.toNat + k * (N - 1) ≤ (w.mem .writeCount).toNat) ∧
    (2 ≤ N →
      (∀ out maxRetries frame log w' out' log' out'',
        w.readers r = .loadBounded out maxRetries frame log → w.step (.read r) = some w' →
        w'.readers r = .loadedBounded out' log' .kStalled out'' →
        log.start + (maxRetries.toNat + 1) * (N - 1) ≤ (w'.mem .writeCount).toNat) ∧
      (∀ ls' w' pc pc', (∀ l ∈ ls', l.leavesCall r = true) → Run.exec World.step w ls' = some w' →
        (w.readers r).retryPc? = some pc → (w'.readers r).retryPc? = some pc' →
        ls'.countP (Label.isReadOf r) < 2 * (kWords size + 4)) ∧
      ∀ out maxRetries ls' w' out' log' out'', (∀ l ∈ ls', l.leavesCall r = true) →
        Run.exec World.step w (.call r (.loadBounded out maxRetries) :: ls') = some w' →
        w'.readers r ≠ .loadedBounded out' log' .kStalled out'') := by
  have hw := World.run_paid hrun
  obtain ⟨hi, hr⟩ := hw hcalls
  refine ⟨fun k log c hk hc => ?_, fun hN => ⟨?_, ?_, ?_⟩⟩
  · rw [hi.outside.count]
    exact (hr r).toll hk c hc
  · intro out maxRetries frame log w' out' log' out'' hrd hstep hstalled
    obtain ⟨hm, -, ⟨hno, -⟩ | ⟨-, hnext⟩⟩ := World.step_leavesCall (r := r) rfl hstep
    · simp [Label.isReadOf] at hno
    · have hpaid := hr r
      rw [hrd] at hpaid hnext
      rw [hstalled] at hnext
      rw [hm, hi.outside.count]
      exact hpaid.stalled hi.outside hnext
  · intro ls' w' pc pc' hls hexec hpc hpc'
    have hused := World.accesses_exec hN hw hcalls hls hexec hpc hpc'
    -- at most a whole budget at the start, and at least one access left at the end
    have hmax := accessesLeft_le w.hist pc
    have hleft : 0 < accessesLeft w'.hist pc' := Nat.add_pos_left (left_pos size pc') _
    omega
  · intro out maxRetries ls' w' out' log' out'' hls hexec hstalled
    obtain ⟨w₁, h₁, h₂⟩ := Run.exec_cons_eq_some.mp hexec
    have hw₁ := World.step_paid hw h₁
    obtain ⟨-, hh, -, r', rd, hreaders, ⟨c, heq, rfl⟩ | ⟨heq, -⟩⟩ := World.step_reading h₁ rfl
    · obtain ⟨rfl, rfl⟩ := Label.call.inj heq
      have hentry : NotStalled w₁.hist.published.length (w₁.readers r) := by
        rw [hreaders, Function.update_self, hh]
        rfl
      have hend := World.notStalled_exec hN hw₁ (by rw [hh]; exact hcalls) hls hentry h₂
      rw [hstalled] at hend
      exact hend rfl
    · cases heq

/-- Two cells: a `Load` captures the first position, the writer completes a second store
and stops inside a third, in the captured cell, and the `Load` finds it odd. -/
def overtakenLoad : List (Label 8 Unit) :=
  [stores (.replicate 8 1) 7, calls () (.load (.replicate 8 0)) 1, stores (.replicate 8 2) 7,
    stores (.replicate 8 3) 3, reads () 1].flatten

theorem retries_paid_for_overtakenLoad : ∃ w : World 2 8 Unit, World.run overtakenLoad = some w ∧
    (∃ log, (w.readers ()).failures? = some (1, log) ∧ log.first? = some 1 ∧
      (1 : UInt64).toNat + 1 * (2 - 1) ≤ (w.mem .writeCount).toNat) ∧
    ∃ w', Run.exec World.step w [.read ()] = some w' ∧
      [(Label.read () : Label 8 Unit)].countP (Label.isReadOf ()) < 2 * (kWords 8 + 4) := by
  have hex : ∃ w : World 2 8 Unit, Run.exec World.step (World.init 2 8 Unit) overtakenLoad = some w ∧
      (w.hist.calls = 3 ∧
        (w.readers ()).failures?.map (fun p => (p.1, p.2.first?)) = some (1, some 1) ∧
        (w.readers ()).retryPc? = some .capture ∧
        (Run.exec World.step w [.read ()]).any (fun w' => (w'.readers ()).retryPc? = some (.first 2)) =
          true) :=
    Run.exists_exec (by decide +kernel)
  obtain ⟨w, hrun, hcalls, hfailures, hpc, hnext⟩ := hex
  obtain ⟨⟨k, log⟩, hlog, heq⟩ := Option.map_eq_some_iff.mp hfailures
  obtain ⟨rfl, hfirst⟩ := Prod.mk.inj heq
  obtain ⟨w', hw', hpc'⟩ := (Option.any_eq_true _ _).mp hnext
  obtain ⟨hpaid, hstopped⟩ := retries_paid_for hrun (by rw [hcalls]; decide) ()
  obtain ⟨-, hbounded, -⟩ := hstopped (le_refl 2)
  exact ⟨w, hrun, ⟨log, hlog, hfirst, hpaid 1 log 1 hlog hfirst⟩, w', hw',
    hbounded [.read ()] w' .capture (.first 2) (by decide) hw' hpc (of_decide_eq_true hpc')⟩

end XmBase.Concurrency.SeqlockRing
