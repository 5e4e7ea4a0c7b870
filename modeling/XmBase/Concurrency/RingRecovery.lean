import XmBase.Concurrency.RingSolo
/-!
# XmBase.Concurrency.RingRecovery

**What a crash costs once it is repaired.**

First the slot's blind spot. `RepairAfterWriterCrash` looks at the parity of the
in-flight cell only. A store killed between its final sequence store (W2) and the
cursor store (W3) leaves that parity even, so the repair does nothing. At depth
two and more nobody reads that cell for the captured cursor. At depth one it is
the cell of the cursor, and it holds the index of the position after: every
iteration ends in "the writer lapped, reload and retry", with no writer left to
make the retry succeed (`returns_after_repair_iff`).
-/

namespace XmBase.Concurrency.SeqlockRing

open Atomic (Access Code)

variable {N size : Nat} [NeZero N] {ι : Type} [DecidableEq ι] {m m' : Mem N size}

/-! ### Completed stores

A store that completes leaves nothing behind but its value: the memory is at rest, whatever
was stored before. Counters are compared as words here, so the statements hold at the wrap
too. -/

/-- The storage after the stores of `vs` ran to completion, one after the other. -/
def afterStores (vs : List (Payload size)) : Mem N size :=
  vs.foldl (fun m v => runStore v m) (zeroed N size)

/-- The storage between two stores, `n` of which are complete; counters wrap. For the slot
the sequence is exact, because every store goes to the one cell. -/
structure AtRest (m : Mem N size) (n : Nat) : Prop where
  count : m .writeCount = .ofNat n
  even : ∀ j, (m (.seq j)).toNat % 2 = 0
  newest : 0 < n → m (.index (readCell (m .writeCount) 0)) = m .writeCount - 1
  slot : N = 1 → ∀ j, m (.seq j) = .ofNat (2 * n)

/-- A completed store keeps the storage at rest. So the stores before the one that is cut
can be left out of account. -/
theorem AtRest.store {n : Nat} (hm : AtRest m n) (hs : StoreAt m m' (.inr ())) :
    AtRest m' (n + 1) := by
  obtain ⟨hframe, hcount, hseq, hidx⟩ := hs
  have hsame : ∀ j, j ≠ nextCell m → m' (.seq j) = m (.seq j) :=
    fun j hj => hframe _ (by simp) (fun h => hj (Option.some.inj h))
  refine ⟨?_, ?_, ?_, ?_⟩
  · rw [hcount, hm.count, UInt64.ofNat_add]
    rfl
  · intro j
    by_cases hj : j = nextCell m
    · rw [hj, hseq]
      exact Word.even_add_two (hm.even _)
    · rw [hsame j hj]
      exact hm.even j
  · intro _
    have hprev : m' .writeCount - 1 = m .writeCount := by rw [hcount, UInt64.add_sub_cancel]
    rw [readCell, snapshotWant_zero, hprev]
    exact hidx
  · intro h1 j
    subst h1
    have hj : j = nextCell m := Subsingleton.elim _ _
    rw [hj, hseq, hm.slot rfl, Nat.mul_add, UInt64.ofNat_add]
    rfl

theorem atRest_afterStores (vs : List (Payload size)) :
    AtRest (afterStores vs : Mem N size) vs.length := by
  induction vs using List.reverseRecOn with
  | nil => exact ⟨rfl, fun _ => rfl, by simp, fun _ _ => rfl⟩
  | append_singleton vs v ih =>
      rw [List.length_append, List.length_singleton, afterStores, List.foldl_append]
      exact ih.store (runStore_spec v _)

/-- Storage at rest needs no repair. -/
theorem AtRest.runRepair {n : Nat} (hm : AtRest m n) : runRepair m = m := by
  rw [runRepair_eq, if_neg]
  rw [hm.even]
  decide

theorem AtRest.not_stuck {n : Nat} (hm : AtRest m n) : ¬ Stuck m := by
  rintro ⟨hne, -, hodd | hidx⟩
  · rw [hm.even] at hodd
    cases hodd
  · refine hidx (hm.newest ?_)
    by_contra hn
    obtain rfl : n = 0 := by omega
    exact hne hm.count

/-! ### One killed store

By the place of the kill. Up to the odd sequence nothing has happened; from there to (W2)
the cell is odd and the repair resets it; between (W2) and (W3) the cell is even and the
repair lets it be. Only the last case can hurt, and only where the cell is the one being
read. -/

/-- The in-flight cell is the cell of the cursor at depth one only. -/
theorem readCell_eq_nextCell_iff (hne : m .writeCount ≠ 0) :
    readCell (m .writeCount) 0 = nextCell m ↔ N = 1 := by
  have hpos := (Word.ne_zero_iff _).mp hne
  rw [readCell, nextCell, toNat_snapshotWant hpos]
  constructor
  · intro h
    by_contra hN
    have hN0 : N ≠ 0 := NeZero.ne N
    exact cellOf_ne (by omega) (by omega) h
  · rintro rfl
    exact Subsingleton.elim _ _

/-- Where a cell other than the in-flight one is read, a cut store and its repair
do not show. -/
theorem AtRest.not_stuck_of_frame {n : Nat} (hm : AtRest m n)
    (hframe : ∀ l, l.cell? ≠ some (nextCell m) → m' l = m l)
    (hcell : m .writeCount ≠ 0 → readCell (m .writeCount) 0 ≠ nextCell m) : ¬ Stuck m' := by
  have hcount : m' .writeCount = m .writeCount := hframe _ (by simp [Loc.cell?])
  rintro ⟨hne, hrest⟩
  rw [hcount] at hne hrest
  have hoff : ∀ l : Loc N size, l.cell? = some (readCell (m .writeCount) 0) → m' l = m l :=
    fun l hl => hframe l (by rw [hl]; exact fun h => hcell hne (Option.some.inj h))
  rw [hoff _ rfl, hoff _ rfl] at hrest
  exact hm.not_stuck ⟨hne, hrest⟩

/-- A store cut while its sequence is odd: the repair resets the cell. -/
theorem AtRest.not_stuck_of_raised_one {n : Nat} (hm : AtRest m n) (hr : Raised m m' 1) :
    ¬ Stuck (SeqlockRing.runRepair m') := by
  have hcount : m' .writeCount = m .writeCount := hr.frame _ (by simp [Loc.cell?])
  have hnext : nextCell m' = nextCell m := by rw [nextCell, nextCell, hcount]
  have hodd : (m' (.seq (nextCell m'))).toNat % 2 = 1 := by
    rw [hnext, hr.seq]
    exact Word.odd_add_one (hm.even _)
  rw [runRepair_eq, if_pos hodd, hnext]
  by_cases hcell : readCell (m .writeCount) 0 = nextCell m
  · -- the cell of the cursor itself reads as never written now
    have hcount' : Function.update m' (.seq (nextCell m)) 0 .writeCount = m .writeCount := by
      rw [Function.update_of_ne (by simp), hcount]
    rintro ⟨-, hzero, -⟩
    rw [hcount', hcell, Function.update_self] at hzero
    exact hzero rfl
  · refine hm.not_stuck_of_frame (fun l hl => ?_) (fun _ => hcell)
    rw [Function.update_of_ne (by rintro rfl; exact hl rfl)]
    exact hr.frame l hl

/-- A store cut between (W2) and (W3): the repair does nothing. -/
theorem AtRest.stuck_of_raised_two {n : Nat} (hm : AtRest m n) (hr : Raised m m' 2)
    (hidx : m' (.index (nextCell m)) = m .writeCount) :
    Stuck (SeqlockRing.runRepair m') ↔ N = 1 ∧ n % 2 ^ 64 ≠ 0 ∧ (n + 1) % 2 ^ 63 ≠ 0 := by
  have hcount : m' .writeCount = m .writeCount := hr.frame _ (by simp [Loc.cell?])
  have hnext : nextCell m' = nextCell m := by rw [nextCell, nextCell, hcount]
  have heven : (m' (.seq (nextCell m))).toNat % 2 = 0 := by
    rw [hr.seq]
    exact Word.even_add_two (hm.even _)
  rw [runRepair_eq, hnext, if_neg (by rw [heven]; decide)]
  by_cases h0 : m .writeCount = 0
  · refine iff_of_false (fun hs => hs.1 (by rw [hcount, h0])) ?_
    rintro ⟨-, hn, -⟩
    exact (Word.ofNat_ne_zero_iff n).mpr hn (by rw [← hm.count, h0])
  · have hn : n % 2 ^ 64 ≠ 0 := (Word.ofNat_ne_zero_iff n).mp (by rw [← hm.count]; exact h0)
    by_cases hN : N = 1
    · have hcell := (readCell_eq_nextCell_iff h0).mpr hN
      have hseq : m' (.seq (nextCell m)) ≠ 0 ↔ (n + 1) % 2 ^ 63 ≠ 0 := by
        rw [hr.seq, hm.slot hN, show (2 : UInt64) = .ofNat 2 from rfl, ← UInt64.ofNat_add,
          Word.ofNat_ne_zero_iff]
        omega
      rw [Stuck, hcount, hcell, hseq]
      refine ⟨fun hs => ⟨hN, hn, hs.2.1⟩, fun h => ⟨h0, h.2.2, Or.inr ?_⟩⟩
      rw [hidx]
      exact Word.ne_sub_one _
    · refine iff_of_false (hm.not_stuck_of_frame hr.frame ?_) (fun h => hN h.1)
      intro hne h
      exact hN ((readCell_eq_nextCell_iff hne).mp h)

/-- The storage after the completed stores of `vs`, a store of `v` killed after `k`
accesses, and the repair. -/
def afterRepair (vs : List (Payload size)) (v : Payload size) (k : Nat) : Mem N size :=
  runRepair (cutStore v k (afterStores vs)).1

/-- **Which kills leave the ring stuck.** At depth one the cell in flight is also the cell
of the cursor, and between (W2) and (W3) its sequence is even but its index that of the next
position. -/
theorem stuck_afterRepair_iff (vs : List (Payload size)) (v : Payload size) (k : Nat) :
    Stuck (afterRepair vs v k : Mem N size) ↔
      N = 1 ∧ k = kWords size + 5 ∧ vs.length % 2 ^ 64 ≠ 0 ∧ (vs.length + 1) % 2 ^ 63 ≠ 0 := by
  have hm : AtRest (afterStores vs : Mem N size) vs.length := atRest_afterStores vs
  obtain ⟨hs, hacc⟩ := cutStore_spec v k (afterStores vs : Mem N size)
  unfold afterRepair
  generalize cutStore v k (afterStores vs : Mem N size) = cut at hs hacc
  obtain ⟨m', t⟩ := cut
  -- a cut anywhere else leaves something a reader can answer from
  have hfine : ¬ Stuck (runRepair m') → k ≠ kWords size + 5 → (Stuck (runRepair m') ↔
      N = 1 ∧ k = kWords size + 5 ∧ vs.length % 2 ^ 64 ≠ 0 ∧ (vs.length + 1) % 2 ^ 63 ≠ 0) :=
    fun h hk => iff_of_false h (fun h => hk h.2.1)
  have hrest : m' = afterStores vs → ¬ Stuck (runRepair m') := by
    rintro rfl
    rw [hm.runRepair]
    exact hm.not_stuck
  rcases t with pc | _
  · cases pc with
    | loadCount => exact hfine (hrest hs) (by simp only [storeAccesses] at hacc; omega)
    | loadSeq idx => exact hfine (hrest hs.1) (by simp only [storeAccesses] at hacc; omega)
    | storeOdd idx s => exact hfine (hrest hs.1) (by simp only [storeAccesses] at hacc; omega)
    | storeIndex idx s =>
        exact hfine (hm.not_stuck_of_raised_one hs.1) (by simp only [storeAccesses] at hacc; omega)
    | copy idx s i =>
        obtain ⟨hr, -, -, hi, -⟩ := hs
        exact hfine (hm.not_stuck_of_raised_one hr) (by simp only [storeAccesses] at hacc; omega)
    | storeCount idx =>
        obtain ⟨hr, hidx, hindex⟩ := hs
        have hk : k = kWords size + 5 := by simp only [storeAccesses] at hacc; omega
        rw [hm.stuck_of_raised_two hr (by rw [hindex, hidx])]
        simp only [hk, true_and]
  · have hm' := hm.store hs
    refine hfine ?_ (by simp only [storeAccesses] at hacc; omega)
    rw [hm'.runRepair]
    exact hm'.not_stuck

/-- **After a repair a reader answers in its first iteration, except on the slot
when the store was killed between (W2) and (W3)** (and counters have not just
wrapped to zero). -/
theorem returns_after_repair_iff (vs : List (Payload size)) (v : Payload size) (k : Nat)
    (out : Payload size) (maxRetries : UInt32) :
    ((load out).ReturnsInRound (· = .capture) (afterRepair vs v k : Mem N size) .capture
        (fun _ => True) ∧
      (loadBounded out maxRetries).ReturnsInRound (·.pc = .capture) (afterRepair vs v k : Mem N size)
        ⟨0, .capture⟩ (fun res => res.1 ≠ .kStalled)) ↔
    ¬ (N = 1 ∧ k = kWords size + 5 ∧ vs.length % 2 ^ 64 ≠ 0 ∧ (vs.length + 1) % 2 ^ 63 ≠ 0) := by
  rw [load_returnsInRound_iff, loadBounded_returnsInRound_iff, and_self, stuck_afterRepair_iff]

theorem returns_after_repair_depth_two :
    (load (N := 2) (.replicate 9 0)).ReturnsInRound (· = .capture)
      (afterRepair [.replicate 9 1] (.replicate 9 2) 7) .capture (fun _ => True) :=
  ((returns_after_repair_iff (N := 2) [.replicate 9 1] (.replicate 9 2) 7 (.replicate 9 0) 8).mpr
    (by decide)).1

/-- One completed store on the slot, and a second one killed right before (W3):
`Load` is back at its loop head with the storage unchanged, and `LoadBounded` is
stalled whatever its budget. -/
theorem slot_killed_before_count_stalls :
    ¬ (load (N := 1) (.replicate 9 0)).ReturnsInRound (· = .capture)
        (afterRepair [.replicate 9 1] (.replicate 9 2) 7) .capture (fun _ => True) ∧
    ¬ (loadBounded (N := 1) (.replicate 9 0) 8).ReturnsInRound (·.pc = .capture)
        (afterRepair [.replicate 9 1] (.replicate 9 2) 7) ⟨0, .capture⟩
        (fun res => res.1 ≠ .kStalled) := by
  have hstuck : Stuck (afterRepair [.replicate 9 1] (.replicate 9 2) 7 : Mem 1 9) :=
    (stuck_afterRepair_iff _ _ _).mpr (by decide)
  rw [load_returnsInRound_iff, loadBounded_returnsInRound_iff]
  exact ⟨fun h => h hstuck, fun h => h hstuck⟩

/-! ### Damage control

The other side of the same accesses: what a kill and a repair cannot touch. From a kill to
the next store everything outside the in-flight cell is frozen (`World.Repairing`), however
often the repair is killed and run again, and with readers in flight; the five clauses of
`World.Confined` are read off that. -/

/-- The writing side is inside a `Store`. -/
def Writer.isStoring : Writer size → Bool
  | .storing .. => true
  | _ => false

/-- Outside a store, the writing side touches nothing but the in-flight cell. -/
theorem WriterMove.repairing {h h' : History N size} {wr wr' : Writer size}
    (hmove : WriterMove m h wr m' h' wr') (hi : Inv m h wr) (hquiet : wr.isStoring = false)
    (hquiet' : wr'.isStoring = false) :
    h'.published = h.published ∧ h'.calls = h.calls ∧
      ∀ l, l.cell? ≠ some (cellOf h.published.length) → m' l = m l := by
  cases hmove with
  | callStore v => cases hquiet'
  | killRepair pc => exact ⟨rfl, rfl, fun _ _ => rfl⟩
  | callRepair => exact ⟨rfl, rfl, fun _ _ => rfl⟩
  | repairCount => exact ⟨rfl, rfl, fun _ _ => rfl⟩
  | repairOdd idx hodd => exact ⟨rfl, rfl, fun _ _ => rfl⟩
  | repairEven idx heven => exact ⟨rfl, rfl, fun _ _ => rfl⟩
  | reset idx =>
      refine ⟨rfl, rfl, ?_⟩
      intro l hl
      rw [hi.cell_eq hi.phase]
      exact update_of_cell_ne hl
  | _ => cases hquiet

/-- A store begins with its call. -/
theorem World.not_storing_of_step {w w' : World N size ι} {l : Label size ι}
    (hl : ∀ v, l ≠ .callStore v) (hwr : l.isWriting = true) (h : w.step l = some w')
    (hquiet : w.writer.isStoring = false) : w'.writer.isStoring = false := by
  obtain ⟨m, wr, rd, hist⟩ := w
  cases l with
  | callStore v => exact absurd rfl (hl v)
  | write =>
      cases wr with
      | storing v pc => cases hquiet
      | repairing pc =>
          obtain rfl := Option.some.inj h
          dsimp only
          split <;> rfl
      | _ => simp [World.step] at h
  | kill =>
      cases wr with
      | storing v pc => cases hquiet
      | repairing pc => obtain rfl := Option.some.inj h; rfl
      | _ => simp [World.step] at h
  | callRepair =>
      cases wr with
      | dead => obtain rfl := Option.some.inj h; rfl
      | _ => simp [World.step] at h
  | call r c => simp [Label.isWriting] at hwr
  | read r => simp [Label.isWriting] at hwr

/-- `w` has no store in flight and differs from `w₀` in `w₀`'s in-flight cell at most. It is
kept by every label but a call of `Store`. -/
structure World.Repairing (w₀ w : World N size ι) : Prop where
  inv : Inv w.mem w.hist w.writer
  published : w.hist.published = w₀.hist.published
  calls : w.hist.calls = w₀.hist.calls
  quiet : w.writer.isStoring = false
  frame : ∀ l, l.cell? ≠ some (cellOf w₀.hist.published.length) → w.mem l = w₀.mem l

/-- Everything but a call of `Store` keeps the damage where it is. -/
theorem World.step_repairing {w₀ w w' : World N size ι} {l : Label size ι}
    (hcalls : w₀.hist.calls < 2 ^ 63) (hl : ∀ v, l ≠ .callStore v) (hw : w₀.Repairing w)
    (h : w.step l = some w') : w₀.Repairing w' := by
  cases hwr : l.isWriting with
  | false =>
      obtain ⟨hm, hh, hw', -⟩ := World.step_reading h hwr
      obtain ⟨h1, h2, h3, h4, h5⟩ := hw
      refine ⟨?_, ?_, ?_, ?_, ?_⟩
      · rw [hm, hh, hw']; exact h1
      · rw [hh]; exact h2
      · rw [hh]; exact h3
      · rw [hw']; exact h4
      · rw [hm]; exact h5
  | true =>
      have hquiet' := World.not_storing_of_step hl hwr h hw.quiet
      obtain ⟨hmove, -⟩ := World.step_writing h hwr
      obtain ⟨hp, hc, hframe⟩ := hmove.repairing hw.inv hw.quiet hquiet'
      refine ⟨hw.inv.move hmove ?_, hp.trans hw.published, hc.trans hw.calls, hquiet', ?_⟩
      · rw [hc, hw.calls]; exact hcalls
      · intro l' hl'
        rw [hframe l' (by rw [hw.published]; exact hl'), hw.frame l' hl']

/-- From a kill to the next call of `Store`, whatever the readers do and however
often the repair itself is killed. -/
theorem World.exec_repairing {w₀ w : World N size ι} {ls : List (Label size ι)}
    (hi : Inv w₀.mem w₀.hist w₀.writer) (hcalls : w₀.hist.calls < 2 ^ 63)
    (hls : ∀ l ∈ ls, ∀ v, l ≠ .callStore v)
    (h : Run.exec World.step w₀ (.kill :: ls) = some w) : w₀.Repairing w := by
  obtain ⟨w₁, hkill, hrest⟩ := Run.exec_cons_eq_some.mp h
  have hdead : w₁ = { w₀ with writer := .dead } := by
    obtain ⟨m, wr, rd, hist⟩ := w₀
    cases wr with
    | storing v pc => exact (Option.some.inj hkill).symm
    | repairing pc => exact (Option.some.inj hkill).symm
    | _ => simp [World.step] at hkill
  have hstart : w₀.Repairing w₁ := by
    subst hdead
    exact ⟨{ hi with phase := trivial }, rfl, rfl, rfl, fun _ _ => rfl⟩
  exact Run.exec_invariant_of_steps (I := w₀.Repairing) (World.step_repairing hcalls)
    (Run.steps_of_forall_mem hls w₁) hstart hrest

/-- What the ring guarantees around kills and repairs. The writer is idle before
the first store, after each completed one and after each repair. -/
structure World.Confined (w : World N size ι) : Prop where
  /-- Only the in-flight cell can be mid-store. -/
  odd : ∀ j, (w.mem (.seq j)).toNat % 2 = 1 → j = nextCell w.mem
  /-- With no writer at work, no cell is. -/
  repaired : w.writer = .idle → ∀ j, (w.mem (.seq j)).toNat % 2 = 0
  /-- A kill here and everything up to the next store leave the cursor alone, and
  the cells of all positions less than a lap old, which are whole. -/
  kept : ∀ ls w', (∀ l ∈ ls, ∀ v, l ≠ .callStore v) →
    Run.exec World.step w (.kill :: ls) = some w' →
    w'.mem .writeCount = w.mem .writeCount ∧
    ∀ p, p < (w.mem .writeCount).toNat → (w.mem .writeCount).toNat < p + N →
      (∃ v, w.hist.published[p]? = some v ∧ Holds w.mem (cellOf p) p v) ∧
      ∀ l, l.cell? = some (cellOf p) → w'.mem l = w.mem l
  /-- With no writer at work, a snapshot misses the in-flight cell at most. -/
  snapshot : w.writer = .idle → ∀ k out, ∃ n out',
    (SeqlockRing.snapshot k).Returns w.mem ⟨0, out, .capture⟩ w.mem (n, out') ∧
    min k (min (w.mem .writeCount).toNat (N - 1)) ≤ n ∧
    n ≤ min k (min (w.mem .writeCount).toNat N) ∧
    ∀ i < n, w.hist.published[(w.mem .writeCount).toNat - 1 - i]? = some (out' i)
  /-- After a completed store it misses nothing. -/
  next : ∀ v idx w', w.writer = .storing v (.storeCount idx) → w.step .write = some w' →
    ∀ k out, ∃ n out',
      (SeqlockRing.snapshot k).Returns w'.mem ⟨0, out, .capture⟩ w'.mem (n, out') ∧
      n = min k (min (w'.mem .writeCount).toNat N) ∧
      ∀ i < n, w'.hist.published[(w'.mem .writeCount).toNat - 1 - i]? = some (out' i)

/-- Positions less than a lap old validate. Their cells are not the one in flight, which is
all that a kill can have damaged. -/
theorem Inv.soloOutcome_recent {h : History N size} {wr : Writer size} (hi : Inv m h wr) :
    ∀ i < N - 1, i < h.published.length →
      ∃ staged, soloOutcome m i (m .writeCount) = .valid (m .writeCount) staged := by
  intro i hiN hilen
  have hcount := hi.outside.count
  obtain ⟨v, hv⟩ : ∃ v, h.published[h.published.length - 1 - i]? = some v :=
    ⟨_, List.getElem?_eq_getElem (by omega)⟩
  exact ⟨_, (hi.outside.held hv (by omega)).soloOutcome (by omega) (by omega)⟩

/-- After a completed store the last `N` positions validate. -/
theorem Inv.soloOutcome_after_count {h : History N size} {v : Payload size} {idx : UInt64}
    (hi : Inv m h (.storing v (.storeCount idx)))
    (hm' : m' = Function.update m .writeCount (idx + 1))
    (hcount : (m' .writeCount).toNat = (h.published ++ [v]).length) :
    ∀ i < N, i < (h.published ++ [v]).length →
      ∃ staged, soloOutcome m' i (m' .writeCount) = .valid (m' .writeCount) staged := by
  intro i hiN hilen
  obtain ⟨u, hu⟩ : ∃ u, (h.published ++ [v])[(h.published ++ [v]).length - 1 - i]? = some u :=
    ⟨_, List.getElem?_eq_getElem (by omega)⟩
  rw [List.length_append, List.length_singleton] at hilen hcount hu
  have hheld := hi.held_after_count hu (by omega)
  rw [← hm'] at hheld
  exact ⟨_, hheld.soloOutcome (by omega) (by omega)⟩

/-- **Crash repair confines the damage to the in-flight cell**, in every state of every run
with fewer than `2 ^ 63` stores. The bound is that of the sequences: behind it they come
back to zero, and the last section has a run that shows what happens then. -/
theorem run_confined {w : World N size ι} {ls : List (Label size ι)} (hrun : World.run ls = some w)
    (hcalls : w.hist.calls < 2 ^ 63) : w.Confined := by
  have hi := World.run_inv hrun hcalls
  have hcount := hi.outside.count
  have hnext : nextCell w.mem = cellOf w.hist.published.length := by rw [nextCell, hcount]
  refine ⟨?_, ?_, ?_, ?_, ?_⟩
  · intro j hodd
    by_contra hj
    have := hi.outside.even (by rw [← hnext]; exact hj)
    omega
  · intro hidle j
    by_cases hj : j = cellOf w.hist.published.length
    · have hquiet := hi.phase
      rw [hidle] at hquiet
      rw [hj]
      exact hquiet
    · exact hi.outside.even hj
  · intro ls' w' hls h
    have hrep := World.exec_repairing hi hcalls hls h
    refine ⟨hrep.frame _ (by simp [Loc.cell?]), ?_⟩
    intro p hp hlap
    rw [hcount] at hp hlap
    refine ⟨⟨_, List.getElem?_eq_getElem hp, hi.outside.held (List.getElem?_eq_getElem hp) hlap⟩, ?_⟩
    intro l hl
    exact hrep.frame l (by rw [hl]; exact fun h => cellOf_ne hp hlap (Option.some.inj h))
  · intro _ k out
    obtain ⟨n, out', hret, hlow, hup, hvals⟩ :=
      snapshot_alone hi.sound hcount hi.soloOutcome_recent k out
    rw [hcount]
    exact ⟨n, out', hret, by omega, hup, hvals⟩
  · intro v idx w' hwr hstep k out
    have hi' := World.step_inv (fun _ => hi) hstep
    obtain ⟨m, wr, rd, hist⟩ := w
    dsimp only at hwr
    subst hwr
    obtain rfl := Option.some.inj hstep
    have hi' := hi' hcalls
    obtain ⟨n, out', hret, hlow, hup, hvals⟩ := snapshot_alone hi'.sound hi'.outside.count
      (hi.soloOutcome_after_count rfl hi'.outside.count) k out
    refine ⟨n, out', hret, ?_, ?_⟩
    · rw [hi'.outside.count]
      omega
    · rw [hi'.outside.count]
      exact hvals

/-- Two stores at depth two, and a third killed half way and repaired. -/
def repairedTail : List (Label 9 Unit) :=
  [stores (.replicate 9 1) 8, stores (.replicate 9 2) 8, stores (.replicate 9 3) 5,
   killedAndRepaired 3].flatten

theorem run_confined_repairedTail : ∃ w : World 2 9 Unit, World.run repairedTail = some w ∧
    w.hist.published = [.replicate 9 1, .replicate 9 2] ∧ w.Confined := by
  have hex : ∃ w : World 2 9 Unit, World.run repairedTail = some w ∧
      w.hist.calls < 2 ^ 63 ∧ w.hist.published = [.replicate 9 1, .replicate 9 2] :=
    Run.exists_exec (by decide +kernel)
  obtain ⟨w, hrun, hcalls, hpub⟩ := hex
  exact ⟨w, hrun, hpub, run_confined hrun hcalls⟩

/-! ### The wrap -/

/-- The writer after a `Store(v)` that stands at `t`. -/
def Writer.ofStore (v : Payload size) : StorePc ⊕ Unit → Writer size
  | .inl pc => .storing v pc
  | .inr () => .idle

/-- The writer's accesses in the system are those of the solo run. -/
theorem World.exec_writes (v : Payload size) (k : Nat) {w : World N size ι} {pc : StorePc}
    (hw : w.writer = .storing v pc)
    (hin : ∀ i < k, ∃ pc', ((store v).alone i w.mem (.inl pc)).2 = .inl pc') :
    ∃ w', Run.exec World.step w (List.replicate k .write) = some w' ∧
      w'.mem = ((store v).alone k w.mem (.inl pc)).1 ∧
      w'.writer = .ofStore v ((store v).alone k w.mem (.inl pc)).2 := by
  induction k generalizing w pc with
  | zero => exact ⟨w, rfl, rfl, hw⟩
  | succ k ih =>
      obtain ⟨m, wr, rd, hist⟩ := w
      dsimp only at hw hin
      subst hw
      rw [List.replicate_succ]
      cases k with
      | zero => exact ⟨_, rfl, rfl, rfl⟩
      | succ k =>
          obtain ⟨pc', hpc'⟩ := hin 1 (by omega)
          rw [Code.alone_succ, Code.alone_zero] at hpc'
          dsimp only at hpc'
          have hsolo : ∀ i, (store v).alone (i + 1) m (.inl pc) =
              (store v).alone i ((store v pc).exec m).1 (.inl pc') := by
            intro i
            rw [Code.alone_succ, hpc']
          have hwriter : (match ((store v pc).exec m).2 with
              | .inl pc' => Writer.storing v pc'
              | .inr () => .idle) = .storing v pc' := by rw [hpc']
          obtain ⟨w', hexec, hmem, hwr⟩ := ih (w := ⟨((store v pc).exec m).1, _, rd,
            hist.afterStore v pc⟩) hwriter (fun i hi => by
              rw [← hsolo]
              exact hin (i + 1) (by omega))
          dsimp only
          rw [hsolo]
          exact ⟨w', Run.exec_cons_eq_some.mpr ⟨_, rfl, hexec⟩, hmem, hwr⟩

/-- A store called by the idle writer and cut before or at its return. -/
theorem World.exec_stores (v : Payload size) {k : Nat} (hk : k ≤ kWords size + 6)
    {w : World N size ι} (hw : w.writer = .idle) :
    ∃ w', Run.exec World.step w (stores v k) = some w' ∧
      w'.mem = (cutStore v k w.mem).1 ∧ w'.writer = .ofStore v (cutStore v k w.mem).2 := by
  obtain ⟨m, wr, rd, hist⟩ := w
  dsimp only at hw
  subst hw
  obtain ⟨w', hexec, hrest⟩ := World.exec_writes (ι := ι) (N := N) v k
    (w := ⟨m, .storing v .loadCount, rd, { hist with calls := hist.calls + 1 }⟩) rfl (by
      intro i hi
      obtain ⟨-, hacc⟩ := cutStore_spec v i m
      rcases hcut : (cutStore v i m).2 with pc' | u
      · exact ⟨pc', hcut⟩
      · rw [hcut] at hacc
        simp only [storeAccesses] at hacc
        omega)
  exact ⟨w', Run.exec_cons_eq_some.mpr ⟨_, rfl, hexec⟩, hrest⟩

/-- Any number of completed stores, as a run. -/
theorem World.run_stores (v : Payload size) (n : Nat) : ∃ w : World N size ι,
    World.run (List.replicate n (stores v (kWords size + 6))).flatten = some w ∧
      w.writer = .idle ∧ AtRest w.mem n := by
  induction n with
  | zero => exact ⟨World.init N size ι, rfl, rfl, ⟨rfl, fun _ => rfl, by simp, fun _ _ => rfl⟩⟩
  | succ n ih =>
      obtain ⟨w, hrun, hidle, hrest⟩ := ih
      obtain ⟨w', hexec, hmem, hwr⟩ := World.exec_stores v (Nat.le_refl (kWords size + 6)) hidle
      refine ⟨w', ?_, ?_, ?_⟩
      · rw [List.replicate_succ', List.flatten_append, List.flatten_singleton]
        exact Run.exec_append hrun hexec
      · rw [hwr, cutStore_complete, Writer.ofStore]
      · rw [hmem]
        exact hrest.store (runStore_spec v w.mem)

/-- A store killed before its first access, and the repair that finds nothing to
do. -/
theorem World.exec_killed_at_call (v : Payload size) {w : World N size ι} (hw : w.writer = .idle)
    (heven : (w.mem (.seq (nextCell w.mem))).toNat % 2 = 0) :
    ∃ w', Run.exec World.step w (stores v 0 ++ killedAndRepaired 2) = some w' ∧
      w'.mem = w.mem ∧ w'.writer = .idle := by
  obtain ⟨m, wr, rd, hist⟩ := w
  dsimp only at hw heven
  subst hw
  have hrep : ((repairAfterWriterCrash (.loadSeq (m .writeCount))).exec m).2 = .inr () := by
    simp only [repairAfterWriterCrash, Access.exec_load, Word.and_one_ne_zero]
    rw [if_neg]
    rw [show (m (.seq (cellOf (m .writeCount).toNat))).toNat % 2 = 0 from heven]
    decide
  have hload : ((repairAfterWriterCrash .loadCount).exec m).1 = m := rfl
  refine ⟨_, rfl, rfl, ?_⟩
  simp only [hload, hrep]

/-- (W3) as a step of the system. -/
theorem World.step_count {w : World N size ι} {v : Payload size} {idx : UInt64}
    (hw : w.writer = .storing v (.storeCount idx)) :
    ∃ w', w.step .write = some w' ∧ w'.mem = Function.update w.mem .writeCount (idx + 1) := by
  obtain ⟨m, wr, rd, hist⟩ := w
  dsimp only at hw
  subst hw
  exact ⟨_, rfl, rfl⟩

/-- A snapshot of a ring whose newest cell reads as never written. -/
theorem snapshot_of_zero {k : Nat} (out : Nat → Payload size) (hk : 0 < k)
    (hne : m .writeCount ≠ 0) (hzero : m (.seq (readCell (m .writeCount) 0)) = 0) :
    (snapshot k).Returns m ⟨0, out, .capture⟩ m (0, out) := by
  have hpos := (Word.ne_zero_iff _).mp hne
  have hlim : 0 < snapshotLimit N k (m .writeCount) := by
    rw [snapshotLimit_eq]
    have := Nat.pos_of_neZero N
    omega
  refine ⟨2, ?_⟩
  rw [Code.alone_succ, snapshot_exec, observe]
  simp only [snapshotOn, snapshotNext, if_pos hlim]
  rw [Code.alone_succ, snapshot_exec, observe, if_pos hzero]
  rfl

/-- The slot with one byte: `2 ^ 63 - 1` completed stores, one killed at its call
and repaired, and one that stands before (W3). -/
def wrapRun : List (Label 1 Unit) :=
  (List.replicate (2 ^ 63 - 1) (stores (.replicate 1 7) 7)).flatten ++
    (stores (.replicate 1 7) 0 ++ killedAndRepaired 2) ++ stores (.replicate 1 7) 6

/-- The store that completes there leaves a sequence of zero behind. -/
theorem wrapRun_not_confined : ∃ w : World 1 1 Unit, World.run wrapRun = some w ∧ ¬ w.Confined := by
  obtain ⟨w₁, hrun₁, hidle₁, hrest⟩ := World.run_stores (ι := Unit) (N := 1)
    (.replicate 1 7 : Payload 1) (2 ^ 63 - 1)
  obtain ⟨w₂, hrun₂, hmem₂, hidle₂⟩ := World.exec_killed_at_call (.replicate 1 7) hidle₁ (hrest.even _)
  obtain ⟨w, hrun, hmem, hwr⟩ := World.exec_stores (.replicate 1 7) (k := 6) (by decide) hidle₂
  refine ⟨w, Run.exec_append (Run.exec_append hrun₁ hrun₂) hrun, ?_⟩
  intro hconf
  rw [hmem₂] at hmem hwr
  obtain ⟨hs, -⟩ := cutStore_spec (.replicate 1 7 : Payload 1) 6 w₁.mem
  have hat : (cutStore (.replicate 1 7 : Payload 1) 6 w₁.mem).2 = .inl (.storeCount (w₁.mem .writeCount)) :=
    cutStore_before_count _ _
  rw [hat] at hs hwr
  obtain ⟨hr, -, -⟩ := hs
  rw [← hmem] at hr
  obtain ⟨w', hstep, hmem'⟩ := World.step_count hwr
  obtain ⟨n, out', hret, hn, -⟩ := hconf.next _ _ w' hwr hstep 1 fun _ => .replicate 1 0
  have hcount : w'.mem .writeCount = .ofNat (2 ^ 63) := by
    rw [hmem', Function.update_self, hrest.count]
    decide
  have hseq : ∀ j, w'.mem (.seq j) = 0 := by
    intro j
    rw [hmem', Function.update_of_ne (by simp), Subsingleton.elim j (nextCell w₁.mem), hr.seq,
      hrest.slot rfl]
    decide
  have hzero := snapshot_of_zero (fun _ => .replicate 1 0) Nat.one_pos (by rw [hcount]; decide)
    (hseq _)
  obtain ⟨rfl, -⟩ := Prod.mk.inj (hret.unique hzero)
  rw [hcount] at hn
  exact absurd hn (by decide)

end XmBase.Concurrency.SeqlockRing
