import XmBase.Concurrency.RingCrashFree
/-!
# XmBase.Concurrency.RingRefinement

**The ring is a last-`N`-values register** in every run without kills: any
number of readers, any depth, any payload size, any schedule, and fewer than
`2 ^ 63` stores.

The abstract object is the list of published values. A store takes effect when
it advances the cursor (W3); a read takes effect when its last iteration
captures the cursor (R0), somewhere between its call and its return.
-/

namespace XmBase.Concurrency.SeqlockRing

variable {N size : Nat} [NeZero N] {ι : Type} [DecidableEq ι]

/-! ### The abstract register

The state is the list of all values published so far. What a reader may be told is a matter
of this list alone, so nothing below mentions cells, sequences or laps. -/

/-- What a step of the ring does to the register it implements. -/
inductive RegisterStep {α : Type} : List α → List α → Prop
  | stutter (p : List α) : RegisterStep p p
  | publish (p : List α) (v : α) : RegisterStep p (p ++ [v])

theorem WriterMove.refines {m m' : Mem N size} {h h' : History N size} {wr wr' : Writer size}
    (hmove : WriterMove m h wr m' h' wr') : RegisterStep h.published h'.published := by
  cases hmove with
  | storeCount v idx => exact .publish _ v
  | _ => exact .stutter _

/-- **Every step of the ring is a step of the register**: one value is published
by the access that ends its store, and nothing else touches the values. -/
theorem World.step_refines {w w' : World N size ι} {l : Label size ι} (h : w.step l = some w') :
    RegisterStep w.hist.published w'.hist.published := by
  cases hl : l.isWriting with
  | false =>
      obtain ⟨-, hh, -⟩ := World.step_reading h hl
      rw [hh]
      exact .stutter _
  | true =>
      exact (World.step_writing h hl).1.refines

/-! ### Read-latest

The point at which a read takes effect is its last capture of the cursor. It lies inside the
call, because every captured cursor is logged with the number of stores complete when the
call began. -/

/-- The last iteration of the call captured the cursor `c`, a number of
completed stores between the call's start and now, and `P c` holds. -/
def LastCapture (h : History N size) (log : CallLog) (P : UInt64 → Prop) : Prop :=
  ∃ c rest, log.captures = c :: rest ∧ log.start ≤ c.toNat ∧ c.toNat ≤ h.published.length ∧ P c

/-- A returned `Load` or `LoadBounded` answers for the register as its last
capture found it, and leaves `out` alone unless it delivers a value. -/
def Reader.Linearized (h : History N size) : Reader size → Prop
  | .loaded _ log true out' =>
      LastCapture h log fun c => c ≠ 0 ∧ h.published[c.toNat - 1]? = some out'
  | .loaded out log false out' => LastCapture h log fun c => c = 0 ∧ out' = out
  | .loadedBounded _ log .kValue out' =>
      LastCapture h log fun c => c ≠ 0 ∧ h.published[c.toNat - 1]? = some out'
  | .loadedBounded out log .kEmpty out' => LastCapture h log fun c => c = 0 ∧ out' = out
  | .loadedBounded out _ .kStalled out' => out' = out
  | _ => True

omit [NeZero N] in
theorem Logged.lastCapture {h : History N size} {log : CallLog} {c : UInt64} {P : UInt64 → Prop}
    (hl : Logged h log) (hc : log.captures.head? = some c) (hP : P c) : LastCapture h log P := by
  obtain ⟨rest, hrest⟩ := List.head?_eq_some_iff.mp hc
  obtain ⟨h1, h2⟩ := hl.captures c (by rw [hrest]; exact List.mem_cons_self)
  exact ⟨c, rest, hrest, h1, h2, hP⟩

/-- **Reads are linearizable to a last-value register.** In a run without kills every `Load`
and `LoadBounded` that has returned answers from its last capture of the cursor, an access
inside the call: with the newest value published by then, whole, or with "empty" where
nothing was. `out` is left alone wherever no value is delivered. -/
theorem load_linearizable {w : World N size ι} {ls : List (Label size ι)}
    (hrun : World.run ls = some w) (hfree : ∀ l ∈ ls, l ≠ .kill)
    (hcalls : w.hist.calls < 2 ^ 63) (r : ι) : (w.readers r).Linearized w.hist := by
  obtain ⟨-, -, hr⟩ := World.run_free hrun hfree hcalls
  obtain ⟨hrd, -, hans⟩ := hr r
  generalize w.readers r = rd at hrd hans
  cases rd with
  | loaded out log found out' =>
      cases found with
      | true =>
          obtain ⟨hlog, c, hc, hne, hv⟩ := hrd
          exact hlog.lastCapture hc ⟨hne, hv⟩
      | false => exact hrd.1.lastCapture hans ⟨rfl, hrd.2⟩
  | loadedBounded out log result out' =>
      cases result with
      | kValue =>
          obtain ⟨hlog, c, hc, hne, hv⟩ := hrd
          exact hlog.lastCapture hc ⟨hne, hv⟩
      | kEmpty => exact hrd.1.lastCapture hans ⟨rfl, hrd.2⟩
      | kStalled => exact hrd.2
  | _ => trivial

/-- Three stores of nine bytes at depth two; a load captures the cursor and
copies half of the first value before the other two lap it. -/
def lappedLoad : List (Label 9 Unit) :=
  [stores (.replicate 9 1) 8, calls () (.load (.replicate 9 0)) 4, stores (.replicate 9 2) 8,
   stores (.replicate 9 3) 8, reads () 8].flatten

theorem load_linearizable_lappedLoad : ∃ w : World 2 9 Unit, World.run lappedLoad = some w ∧
    (w.readers ()).delivered = [.replicate 9 3] ∧ (w.readers ()).Linearized w.hist := by
  have hex : ∃ w : World 2 9 Unit, World.run lappedLoad = some w ∧
      w.hist.calls < 2 ^ 63 ∧ (w.readers ()).delivered = [.replicate 9 3] :=
    Run.exists_exec (by decide +kernel)
  obtain ⟨w, hrun, hcalls, hdel⟩ := hex
  exact ⟨w, hrun, hdel, load_linearizable hrun (by simp [lappedLoad, stores, calls, reads]) hcalls ()⟩

/-! ### Snapshots

A walk takes effect at its one capture too, but the writer may overwrite the older part of
what it was going to read. `ended` is the number of stores begun when the walk ended: the
entries that these can have reached are all that may be missing. -/

/-- A returned `Snapshot` holds the newest values below its cursor, newest first
and without gaps, touches nothing behind them, and misses at most the entries
the stores begun since the capture have overwritten. -/
def Reader.Consecutive (h : History N size) : Reader size → Prop
  | .snapped out k log ended n out' => ∃ c, log.captures = [c] ∧ c.toNat ≤ ended ∧
      n ≤ min k (min c.toNat N) ∧
      (∀ i < n, h.published[c.toNat - 1 - i]? = some (out' i)) ∧
      (∀ i, n ≤ i → out' i = out i) ∧
      min k (min c.toNat (N - (ended - c.toNat))) ≤ n ∧
      (ended = c.toNat → n = min k (min c.toNat N))
  | _ => True

/-- **A concurrent writer can only shorten a snapshot's tail**, and only by what it
overwrote: what is delivered are the newest values at one moment inside the call, without a
gap, and what is missing are positions that stores begun since then have reached. -/
theorem snapshot_consecutive {w : World N size ι} {ls : List (Label size ι)}
    (hrun : World.run ls = some w) (hfree : ∀ l ∈ ls, l ≠ .kill)
    (hcalls : w.hist.calls < 2 ^ 63) (r : ι) : (w.readers r).Consecutive w.hist := by
  obtain ⟨-, -, hr⟩ := World.run_free hrun hfree hcalls
  obtain ⟨hrd, -, hans⟩ := hr r
  generalize w.readers r = rd at hrd hans
  cases rd with
  | snapped out k log ended n out' =>
      obtain ⟨-, c, hcap, hn, he⟩ := hrd
      obtain ⟨hle, hlow⟩ := hans c hcap
      rw [snapshotLimit_eq] at hn
      refine ⟨c, hcap, hle, hn, he.taken, he.rest, hlow, ?_⟩
      intro hend
      rw [hend, Nat.sub_self, Nat.sub_zero] at hlow
      exact le_antisymm hn hlow
  | _ => trivial

/-- Two stores at depth two; a snapshot takes the newest value and then finds
the other cell in the hands of a third store. -/
def shortenedSnapshot : List (Label 9 Unit) :=
  [stores (.replicate 9 1) 8, stores (.replicate 9 2) 8,
   calls () (.snapshot (fun _ => .replicate 9 0) 2) 6, stores (.replicate 9 3) 3,
   reads () 1].flatten

theorem snapshot_consecutive_shortenedSnapshot : ∃ w : World 2 9 Unit,
    World.run shortenedSnapshot = some w ∧
    (w.readers ()).delivered = [.replicate 9 2] ∧ (w.readers ()).Consecutive w.hist := by
  have hex : ∃ w : World 2 9 Unit, World.run shortenedSnapshot = some w ∧
      w.hist.calls < 2 ^ 63 ∧ (w.readers ()).delivered = [.replicate 9 2] :=
    Run.exists_exec (by decide +kernel)
  obtain ⟨w, hrun, hcalls, hdel⟩ := hex
  exact ⟨w, hrun, hdel, snapshot_consecutive hrun (by simp [shortenedSnapshot, stores, calls, reads]) hcalls ()⟩

end XmBase.Concurrency.SeqlockRing
