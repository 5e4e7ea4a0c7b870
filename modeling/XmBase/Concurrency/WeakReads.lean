import XmBase.Concurrency.WeakRing
/-!
# XmBase.Concurrency.WeakReads

**What the read verbs of the ring answer under the memory orders of the source.**

A reader cannot know what a location holds now, only what its own view excludes. The three
pairs of the header are the three steps of the argument:

* a captured cursor (R0) carries the even sequence of every store below it, so the cell of a
  wanted position never looks unwritten, nor older than the position;
* an even first sequence (R1) carries the index and the words of its lap, so nothing older
  is copied out behind it (`Settled`);
* whatever newer write the copy picks up carries the odd sequence of its own lap, and the
  second sequence, behind the acquire fence (R2), is not older than that (`Copied`). Finding
  the first sequence again means that no such write was picked up.

The locals of a call and the answers are those of `XmBase.Concurrency.RingSystem`; a load
that returns the write `m` is `observe` on a memory that holds `m.value`.
-/

namespace XmBase.Concurrency.WeakRing

open Atomic (Access)
open Bytes (toWords ofWords ofWords_eq)
open WeakMemory (View ThreadView Order UpToDate Message perform loadLoc?)
open SeqlockRing (Loc Val StorePc ReadPc LoadResult BoundedFrame SnapshotFrame ReadCall Outcome
  cellOf kWords readCell snapshotWant snapshotLimit toNat_snapshotWant observe loadOn loadBoundedOn
  snapshotOn)

variable {N size : Nat} [NeZero N] {ι : Type} [DecidableEq ι]
  {vs vs' : List (Payload size)} {n n' i t : Nat} {view view' : ThreadView (Loc N size)}
  {pc pc' : ReadPc} {c : UInt64} {m : Message (Loc N size) UInt64}

/-! ### What a reader has seen

What is known at each program counter of a read, as facts about the reader's view. They only
say which writes the view excludes, so they survive anything the writer does (`PcInv.mono`),
and one step of the reader at a time is enough. -/

/-- The cursor `c` was captured, when at least that many of the `n` stores were complete.
The acquire load has brought the even sequence of every store below it along, so a later
load of such a cell's sequence returns that one or a newer one. -/
def Captured (n : Nat) (view : ThreadView (Loc N size)) (c : UInt64) : Prop :=
  c.toNat ≤ n ∧ ∀ p < c.toNat, 2 * (p / N) + 2 ≤ view.cur (.seq (cellOf p))

/-- Cell `j` is not older than its sequence in lap `k`: an even sequence that was loaded
with acquire order has brought the index and the words of its lap along. -/
structure Settled (view : ThreadView (Loc N size)) (j : Fin N) (k : Nat) : Prop where
  seq : 2 * k + 2 ≤ view.cur (.seq j)
  index : k + 1 ≤ view.cur (.index j)
  words : ∀ i, k + 1 ≤ view.cur (.words j i)

/-- What was copied out of cell `j`, each word in its own lap. A lap newer than `k` may have
got in, and word by word a different one; but then the view behind the acquire fence knows
of that lap's odd sequence. -/
def Copied (vs : List (Payload size)) (view : ThreadView (Loc N size)) (j : Fin N) (k : Nat)
    (idx : UInt64) (staged : List UInt64) : Prop :=
  (∃ lap, k ≤ lap ∧ idx.toNat = j + lap * N ∧ 2 * lap + 1 ≤ view.acq (.seq j)) ∧
    ∀ i < staged.length, ∃ lap v, k ≤ lap ∧ vs[j + lap * N]? = some v ∧
      staged[i]? = some (toWords v i) ∧ 2 * lap + 1 ≤ view.acq (.seq j)

/-- What a call that has taken `i` entries knows at its program counter. The wanted position
is the `i`-th below the cursor, and the cell's lap is not older than its lap. -/
def PcInv (vs : List (Payload size)) (n : Nat) (view : ThreadView (Loc N size)) (i : Nat) :
    ReadPc → Prop
  | .capture => True
  | .first c => i < c.toNat ∧ Captured n view c
  | .index c s1 => (i < c.toNat ∧ Captured n view c) ∧
      ∃ k, s1.toNat = 2 * k + 2 ∧ (c.toNat - 1 - i) / N ≤ k ∧ Settled view (readCell c i) k
  | .copy c s1 idx staged => (i < c.toNat ∧ Captured n view c) ∧
      ∃ k, s1.toNat = 2 * k + 2 ∧ (c.toNat - 1 - i) / N ≤ k ∧ Settled view (readCell c i) k ∧
        Copied vs view (readCell c i) k idx staged

theorem Captured.mono (h : Captured n view c) (hn : n ≤ n') (hv : view.Le view') :
    Captured n' view' c :=
  ⟨h.1.trans hn, fun p hp => (h.2 p hp).trans (hv.cur _)⟩

omit [NeZero N] in
theorem Settled.mono {j : Fin N} {k : Nat} (h : Settled view j k) (hv : view.Le view') :
    Settled view' j k :=
  ⟨h.seq.trans (hv.cur _), h.index.trans (hv.cur _), fun i => (h.words i).trans (hv.cur _)⟩

omit [NeZero N] in
theorem Copied.mono {j : Fin N} {k : Nat} {idx : UInt64} {staged : List UInt64}
    (h : Copied vs view j k idx staged) (hvs : vs <+: vs') (hv : view.Le view') :
    Copied vs' view' j k idx staged := by
  obtain ⟨⟨lap, hk, hidx, hseq⟩, hstaged⟩ := h
  refine ⟨⟨lap, hk, hidx, hseq.trans (hv.acq _)⟩, ?_⟩
  intro i hi
  obtain ⟨lap, v, hk, hget, hword, hseq⟩ := hstaged i hi
  exact ⟨lap, v, hk, Word.getElem?_of_prefix hvs hget, hword, hseq.trans (hv.acq _)⟩

/-- What is known at a program counter stays known. Views only rise, and stores are only
begun. -/
theorem PcInv.mono (h : PcInv vs n view i pc) (hvs : vs <+: vs') (hn : n ≤ n')
    (hv : view.Le view') : PcInv vs' n' view' i pc := by
  cases pc with
  | capture => trivial
  | first c => exact ⟨h.1, h.2.mono hn hv⟩
  | index c s1 =>
      obtain ⟨⟨hi, hc⟩, k, hs1, hlap, hset⟩ := h
      exact ⟨⟨hi, hc.mono hn hv⟩, k, hs1, hlap, hset.mono hv⟩
  | copy c s1 idx staged =>
      obtain ⟨⟨hi, hc⟩, k, hs1, hlap, hset, hcopied⟩ := h
      exact ⟨⟨hi, hc.mono hn hv⟩, k, hs1, hlap, hset.mono hv, hcopied.mono hvs hv⟩

/-! ### One load of a reader

What `observe` decides on the loaded value: go on inside the cell, validate, or give up. A
validated copy has the same even sequence in front and behind, so no newer lap got in and
the words are those of one store. A copy that is given up has met a sequence of a newer lap,
so a store that overwrites the position has begun. -/

/-- A memory with the loaded value in it. -/
abbrev holding (m : Message (Loc N size) UInt64) : SeqlockRing.Mem N size := fun _ => m.value

/-- The location of the access at a program counter. -/
def readLoc (i : Nat) : ReadPc → Loc N size
  | .capture => .writeCount
  | .first c => .seq (readCell c i)
  | .index c _ => .index (readCell c i)
  | .copy c _ _ staged =>
      if h : staged.length < kWords size then .words (readCell c i) ⟨staged.length, h⟩
      else .seq (readCell c i)

theorem loadLoc?_load (out : Payload size) (pc : ReadPc) :
    loadLoc? (SeqlockRing.load (N := N) out pc) = some (readLoc 0 pc) := by
  cases pc with
  | capture => rfl
  | copy c s1 idx staged =>
      simp only [SeqlockRing.load, readLoc, readCell, SeqlockRing.snapshotWant_zero]
      split <;> rfl
  | _ => simp only [SeqlockRing.load, readLoc, readCell, SeqlockRing.snapshotWant_zero,
      WeakMemory.loadLoc?_load]

theorem loadLoc?_loadBounded (out : Payload size) (maxRetries : UInt32) (frame : BoundedFrame) :
    loadLoc? (SeqlockRing.loadBounded (N := N) out maxRetries frame) =
      some (readLoc 0 frame.pc) := by
  obtain ⟨attempt, pc⟩ := frame
  cases pc with
  | capture => rfl
  | copy c s1 idx staged =>
      simp only [SeqlockRing.loadBounded, readLoc, readCell, SeqlockRing.snapshotWant_zero]
      split <;> rfl
  | _ => simp only [SeqlockRing.loadBounded, readLoc, readCell, SeqlockRing.snapshotWant_zero,
      WeakMemory.loadLoc?_load]

theorem loadLoc?_snapshot (k : Nat) (frame : SnapshotFrame size) :
    loadLoc? (SeqlockRing.snapshot (N := N) k frame) = some (readLoc frame.taken frame.pc) := by
  obtain ⟨taken, out, pc⟩ := frame
  cases pc with
  | copy c s1 idx staged =>
      simp only [SeqlockRing.snapshot, readLoc, readCell]
      split <;> rfl
  | _ => rfl

/-- The position a wanted cell and lap stand for. -/
theorem want_eq (hi : i < c.toNat) {idx : UInt64} (hidx : idx = snapshotWant c i) {lap : Nat}
    (h : idx.toNat = (readCell c i : Fin N) + lap * N) :
    c.toNat - 1 - i = (readCell c i : Fin N) + lap * N := by
  rw [← h, hidx, toNat_snapshotWant hi]

/-- **A captured cursor** carries the even sequences of all stores below it, so the first
load in a cell of one of these positions is not older than the store to it. -/
theorem Captured.of_load (hm : Good vs .writeCount t m) (ht : t ≤ n) :
    Captured n (view.see (readOrder size .capture) (.writeCount : Loc N size) t m.view) m.value := by
  refine ⟨hm.1.trans_le ht, ?_⟩
  intro p hp
  rw [hm.1] at hp
  exact (hm.2 p hp).trans (ThreadView.view_le_see rfl _)

theorem readCell_eq (hi : i < c.toNat) : (readCell c i : Fin N) = cellOf (c.toNat - 1 - i) := by
  rw [readCell, toNat_snapshotWant hi]

/-- The first sequence is not older than the wanted position. -/
theorem PcInv.first_le (hpc : PcInv vs n view i (.first c))
    (hle : view.start (readOrder size (.first c)) (readLoc i (.first c)) ≤ t) :
    2 * ((c.toNat - 1 - i) / N) + 2 ≤ t := by
  obtain ⟨hi, -, hseq⟩ := hpc
  have hp := hseq (c.toNat - 1 - i) (by omega)
  rw [← readCell_eq hi] at hp
  exact (hp.trans (view.cur_le_start _ _)).trans hle

/-- The cell of a wanted position does not look unwritten. -/
theorem PcInv.observe_ne_zero (hpc : PcInv vs n view i pc) (hm : Good vs (readLoc i pc) t m)
    (hle : view.start (readOrder size pc) (readLoc i pc) ≤ t) :
    observe (holding m) i pc ≠ .zero := by
  intro ho
  obtain ⟨c, rfl, h0⟩ := SeqlockRing.observe_zero.mp ho
  have hle' := hpc.first_le hle
  have ht : t = 0 := hm.1.symm.trans (congrArg UInt64.toNat h0)
  omega

omit [NeZero N] in
/-- One more word, in its lap. A lap newer than the first is known of behind the acquire
fence, by what the write carries. -/
theorem Copied.snoc {j : Fin N} {k : Nat} {idx w : UInt64} {staged : List UInt64}
    (h : Copied vs view j k idx staged) {lap : Nat} {v : Payload size} (hk : k ≤ lap)
    (hv : vs[j + lap * N]? = some v) (hw : w = toWords v staged.length)
    (hseq : 2 * lap + 1 ≤ view.acq (.seq j)) : Copied vs view j k idx (staged ++ [w]) := by
  refine ⟨h.1, ?_⟩
  intro i hi
  rw [List.length_append, List.length_singleton] at hi
  rcases Nat.lt_or_ge i staged.length with hlt | hge
  · rw [List.getElem?_append_left hlt]
    exact h.2 i hlt
  · obtain rfl : i = staged.length := by omega
    exact ⟨lap, v, hk, hv, by rw [List.getElem?_concat_length, hw], hseq⟩

/-- **The reader goes on inside a cell.** -/
theorem PcInv.progress (hpc : PcInv vs n view i pc) (hm : Good vs (readLoc i pc) t m)
    (hle : view.start (readOrder size pc) (readLoc i pc) ≤ t)
    (ho : observe (holding m) i pc = .progress pc') :
    PcInv vs n (view.see (readOrder size pc) (readLoc i pc) t m.view) i pc' := by
  have hmono := view.le_see (readOrder size pc) (readLoc i pc) t m.view
  cases pc with
  | capture => simp [observe] at ho
  | first c =>
      simp only [observe] at ho
      split_ifs at ho with h0 h1
      obtain rfl := Outcome.progress.inj ho
      rw [Word.and_one_ne_zero] at h1
      have hlap := hpc.first_le hle
      obtain ⟨hi, hc⟩ := hpc
      obtain ⟨hval, hview, -⟩ := hm
      rw [show (holding m (.seq (readCell c i))).toNat = t from hval] at h1
      obtain ⟨k, rfl⟩ : ∃ k, t = 2 * k + 2 := ⟨t / 2 - 1, by omega⟩
      obtain ⟨hidx, hwords⟩ := hview k rfl
      refine ⟨⟨hi, hc.mono le_rfl hmono⟩, k, hval, by omega, ?_⟩
      exact ⟨ThreadView.le_see_self _ _ _ _ _, hidx.trans (ThreadView.view_le_see rfl _),
        fun i => (hwords i).trans (ThreadView.view_le_see rfl _)⟩
  | index c s1 =>
      obtain rfl := Outcome.progress.inj ho
      obtain ⟨⟨hi, hc⟩, k, hs1, hlap, hset⟩ := hpc
      have hkt : k + 1 ≤ t := hset.index.trans hle
      obtain ⟨hval, hseq⟩ := hm (t - 1) (by omega)
      refine ⟨⟨hi, hc.mono le_rfl hmono⟩, k, hs1, hlap, hset.mono hmono, ?_, by simp⟩
      exact ⟨t - 1, by omega, hval, hseq.trans (ThreadView.view_le_acq _ _ _ _ _ _)⟩
  | copy c s1 idx staged =>
      simp only [observe] at ho
      split_ifs at ho with hlt hv
      obtain rfl := Outcome.progress.inj ho
      obtain ⟨⟨hi, hc⟩, k, hs1, hlap, hset, hcopied⟩ := hpc
      rw [readLoc, dif_pos hlt] at hm hle hmono ⊢
      rw [readOrder, if_pos hlt] at hle hmono ⊢
      have hkt : k + 1 ≤ t := (hset.words _).trans hle
      obtain ⟨⟨v, hget, hval⟩, hseq⟩ := hm (t - 1) (by omega)
      refine ⟨⟨hi, hc.mono le_rfl hmono⟩, k, hs1, hlap, hset.mono hmono, ?_⟩
      exact (hcopied.mono (List.prefix_refl _) hmono).snoc (by omega) hget hval
        (hseq.trans (ThreadView.view_le_acq _ _ _ _ _ _))

/-- **A validated copy is the value at the wanted position.** -/
theorem PcInv.valid (hpc : PcInv vs n view i pc) (hm : Good vs (readLoc i pc) t m)
    (hle : view.start (readOrder size pc) (readLoc i pc) ≤ t) (hn : n ≤ vs.length)
    {staged : List UInt64}
    (ho : observe (holding m) i pc = .valid c staged) :
    vs[c.toNat - 1 - i]? = some (ofWords staged) := by
  obtain ⟨s1, rfl, hfull, hs2⟩ := SeqlockRing.observe_valid ho
  obtain ⟨⟨hi, hc⟩, k, hs1, -, -, ⟨lap, hk, hidx, hseq⟩, hstaged⟩ := hpc
  rw [readLoc, dif_neg (by omega)] at hm hle
  rw [readOrder, if_neg (by omega)] at hle
  have ht : t = 2 * k + 2 := by rw [← hm.1, ← hs1, ← hs2]
  have hacq : view.acq (.seq (readCell c i)) ≤ 2 * k + 2 := ht ▸ hle
  -- a newer write would have brought its odd sequence along
  obtain rfl : lap = k := by omega
  obtain ⟨v, hv⟩ : ∃ v, vs[c.toNat - 1 - i]? = some v :=
    ⟨_, List.getElem?_eq_getElem (by have := hc.1; omega)⟩
  rw [hv, ofWords_eq]
  intro q hq
  obtain ⟨lap', v', hk', hget, hword, hseq'⟩ := hstaged q (by unfold kWords at hfull; omega)
  obtain rfl : lap' = lap := by omega
  rw [← want_eq hi rfl hidx, hv] at hget
  rw [hword, Option.some.inj hget]

/-- **A read fails only over a position that is being overwritten.** -/
theorem PcInv.overwritten (hpc : PcInv vs n view i pc) (hm : Good vs (readLoc i pc) t m)
    (hle : view.start (readOrder size pc) (readLoc i pc) ≤ t)
    (ho : observe (holding m) i pc = .odd ∨
      observe (holding m) i pc = .invalid) (hc : pc.cursor? = some c) :
    c.toNat - 1 - i + N < vs.length := by
  -- it has seen the sequence of a later lap
  have hlater (hi : i < c.toNat) (hm : Good vs (.seq (readCell c i)) t m)
      (ht : 2 * ((c.toNat - 1 - i) / N) + 3 ≤ t) : c.toNat - 1 - i + N < vs.length := by
    have hlt := hm.2.2 ((c.toNat - 1 - i) / N + 1) (by omega)
    rw [readCell_eq hi, Nat.add_mul, one_mul, ← Nat.add_assoc, cellOf_add_mul] at hlt
    exact hlt
  cases pc with
  | capture => cases hc
  | first c' =>
      obtain rfl := Option.some.inj hc
      have hlap := hpc.first_le hle
      have hodd : t % 2 = 1 := by
        simp only [observe] at ho
        split_ifs at ho with h0 h1
        all_goals simp at ho
        rw [← hm.1]
        exact (Word.and_one_ne_zero _).mp h1
      exact hlater hpc.1 hm (by omega)
  | index c' s1 => simp [observe] at ho
  | copy c' s1 idx staged =>
      obtain rfl := Option.some.inj hc
      simp only [observe] at ho
      split_ifs at ho with hlt hv
      all_goals simp at ho
      obtain ⟨⟨hi, -⟩, k, hs1, hlap, hset, ⟨lap, hk, hidx, hseq⟩, -⟩ := hpc
      rw [readLoc, dif_neg hlt] at hm hle
      rw [readOrder, if_neg hlt] at hle
      have hacq : view.acq (.seq (readCell c' i)) ≤ t := hle
      have hcur : 2 * k + 2 ≤ t := (hset.seq.trans (view.cur_le_acq _)).trans hacq
      refine hlater hi hm ?_
      by_contra hge
      have ht : t = 2 * k + 2 := by omega
      obtain rfl : lap = k := by omega
      obtain rfl : lap = (c'.toNat - 1 - i) / N := by omega
      apply hv
      refine ⟨UInt64.toNat_inj.mp (by rw [hm.1, ht, hs1]), UInt64.toNat_inj.mp ?_⟩
      rw [hidx, toNat_snapshotWant hi, readCell_eq hi, cellOf_add_mul]

/-! ### A call

Around the attempts: the cursor the call answers for, what its thread had heard when it made
the call, and for `Snapshot` the entries it has taken. Only the capture moves the cursor,
and it never goes back. -/

/-- The values `buf` holds of the newest `taken` positions below `c`, and what it was from
there on. -/
structure Entries (published : List (Payload size)) (c : Nat) (out : Nat → Payload size)
    (taken : Nat) (buf : Nat → Payload size) : Prop where
  newest : ∀ i < taken, published[c - 1 - i]? = some (buf i)
  rest : ∀ i, taken ≤ i → buf i = out i

/-- A call that has not returned. `seen` is what the reader had heard before. What was heard
before bounds the cursor the call will answer for from below. -/
structure Pending (view : ThreadView (Loc N size)) (seen : List Nat) (log : Log) (pc : ReadPc) :
    Prop where
  seen_le : ∀ x ∈ seen, x ≤ log.floor
  floor_le : log.floor ≤ view.cur .writeCount
  cursor : ∀ c, pc.cursor? = some c → log.captured = c.toNat ∧ log.floor ≤ c.toNat ∧
    c.toNat ≤ view.cur .writeCount

/-- A call that has returned: the cursor it answers for. -/
structure Returned (n : Nat) (log : Log) : Prop where
  floor_le : log.floor ≤ log.captured
  le : log.captured ≤ n

/-- What is known of a reader. -/
def ReaderInv (vs published : List (Payload size)) (view : ThreadView (Loc N size))
    (seen : List Nat) : Reader size → Prop
  | .idle => True
  | .load _ pc log => PcInv vs published.length view 0 pc ∧ Pending view seen log pc
  | .loadBounded _ _ frame log =>
      PcInv vs published.length view 0 frame.pc ∧ Pending view seen log frame.pc
  | .snapshot out k frame log =>
      PcInv vs published.length view frame.taken frame.pc ∧ Pending view seen log frame.pc ∧
        (frame.pc = .capture → frame.taken = 0 ∧ frame.out = out) ∧
        ∀ c, frame.pc.cursor? = some c → frame.taken < snapshotLimit N k c ∧
          Entries published c.toNat out frame.taken frame.out
  | .loaded out log found out' => Returned published.length log ∧
      if found then 0 < log.captured ∧ published[log.captured - 1]? = some out'
      else log.captured = 0 ∧ out' = out
  | .loadedBounded out log result out' => Returned published.length log ∧
      match result with
      | .kValue => 0 < log.captured ∧ published[log.captured - 1]? = some out'
      | .kEmpty => log.captured = 0 ∧ out' = out
      | .kStalled => out' = out
  | .snapped out k log taken out' => Returned published.length log ∧
      taken ≤ min k (min log.captured N) ∧
      min k (min log.captured (N - (vs.length - log.captured))) ≤ taken ∧
      Entries published log.captured out taken out'

section

variable {published published' : List (Payload size)} {seen : List Nat} {log : Log}

omit [NeZero N] in
theorem Entries.mono {taken : Nat} {out buf : Nat → Payload size} {c : Nat}
    (h : Entries published c out taken buf) (hp : published <+: published') :
    Entries published' c out taken buf :=
  ⟨fun i hi => Word.getElem?_of_prefix hp (h.newest i hi), h.rest⟩

omit [NeZero N] in
/-- One more entry. -/
theorem Entries.take {taken : Nat} {out buf : Nat → Payload size} {c : Nat} {v : Payload size}
    (h : Entries published c out taken buf) (hv : published[c - 1 - taken]? = some v) :
    Entries published c out (taken + 1) (Function.update buf taken v) := by
  constructor
  · intro i hi
    by_cases hin : i = taken
    · subst hin
      rw [Function.update_self]
      exact hv
    · rw [Function.update_of_ne hin]
      exact h.newest i (by omega)
  · intro i hi
    rw [Function.update_of_ne (by omega)]
    exact h.rest i (by omega)

omit [NeZero N] in
theorem Pending.mono (h : Pending view seen log pc) (hv : view.Le view') :
    Pending view' seen log pc := by
  refine ⟨h.seen_le, h.floor_le.trans (hv.cur _), ?_⟩
  intro c hc
  obtain ⟨hcap, hfloor, hle⟩ := h.cursor c hc
  exact ⟨hcap, hfloor, hle.trans (hv.cur _)⟩

/-- What is known of a reader survives the writer. -/
theorem ReaderInv.mono {rd : Reader size} (h : ReaderInv vs published view seen rd)
    (hvs : vs <+: vs') (hp : published <+: published') :
    ReaderInv vs' published' view seen rd := by
  have hn := hp.length_le
  cases rd with
  | idle => trivial
  | load out pc log => exact ⟨h.1.mono hvs hn (.refl _), h.2⟩
  | loadBounded out maxRetries frame log => exact ⟨h.1.mono hvs hn (.refl _), h.2⟩
  | snapshot out k frame log =>
      obtain ⟨hpc, hpend, h0, hwalk⟩ := h
      refine ⟨hpc.mono hvs hn (.refl _), hpend, h0, ?_⟩
      intro c hc
      exact ⟨(hwalk c hc).1, (hwalk c hc).2.mono hp⟩
  | loaded out log found out' =>
      obtain ⟨hret, hans⟩ := h
      refine ⟨⟨hret.floor_le, hret.le.trans hn⟩, ?_⟩
      cases found with
      | true => exact ⟨hans.1, Word.getElem?_of_prefix hp hans.2⟩
      | false => exact hans
  | loadedBounded out log result out' =>
      obtain ⟨hret, hans⟩ := h
      refine ⟨⟨hret.floor_le, hret.le.trans hn⟩, ?_⟩
      cases result with
      | kValue => exact ⟨hans.1, Word.getElem?_of_prefix hp hans.2⟩
      | kEmpty => exact hans
      | kStalled => exact hans
  | snapped out k log taken out' =>
      obtain ⟨hret, hle, hge, hent⟩ := h
      have hlen := hvs.length_le
      exact ⟨⟨hret.floor_le, hret.le.trans hn⟩, hle, by omega, hent.mono hp⟩

/-! ### A load of a call

The verbs, case by case over what `observe` can say. `Look` is all a reader needs to know of
the write it got: that it is good, that the view allowed it, and that a captured cursor
counts complete stores. -/

/-- The load at `pc` returns the write number `t`, which is `m`. -/
structure Look (vs : List (Payload size)) (n : Nat) (view : ThreadView (Loc N size)) (i : Nat)
    (pc : ReadPc) (t : Nat) (m : Message (Loc N size) UInt64) : Prop where
  good : Good vs (readLoc i pc) t m
  le : view.start (readOrder size pc) (readLoc i pc) ≤ t
  capture_le : pc = .capture → t ≤ n

/-- The reader's view behind the load. -/
def behind (view : ThreadView (Loc N size)) (i : Nat) (pc : ReadPc) (t : Nat)
    (m : Message (Loc N size) UInt64) : ThreadView (Loc N size) :=
  view.see (readOrder size pc) (readLoc i pc) t m.view

theorem le_behind (view : ThreadView (Loc N size)) (i : Nat) (pc : ReadPc) (t : Nat)
    (m : Message (Loc N size) UInt64) : view.Le (behind view i pc t m) :=
  ThreadView.le_see _ _ _ _ _

/-- A load inside a cell changes nothing of the call. -/
theorem Pending.inside (h : Pending view seen log pc) (hpc : pc ≠ .capture)
    (hcur : pc'.cursor? = pc.cursor?) :
    Pending (behind view i pc t m) seen (log.note t pc) pc' := by
  have hnote : log.note t pc = log := by
    cases pc with
    | capture => exact absurd rfl hpc
    | _ => rfl
  have hmono := h.mono (le_behind view i pc t m)
  rw [hnote]
  exact ⟨hmono.seen_le, hmono.floor_le, by rw [hcur]; exact hmono.cursor⟩

/-- A failed attempt goes back to the capture. What the thread had heard when it made the
call is as before. -/
theorem Pending.retry (h : Pending view seen log pc) (hpc : pc ≠ .capture) :
    Pending (behind view i pc t m) seen (log.note t pc) .capture := by
  have hin := h.inside (i := i) (t := t) (m := m) hpc rfl
  exact ⟨hin.seen_le, hin.floor_le, by simp [ReadPc.cursor?]⟩

/-- The capture. The cursor is not older than what was heard before, because the thread had
that in its view when it made the call. -/
theorem Pending.captured (h : Pending view seen log .capture) (hl : Look vs n view i .capture t m) :
    Returned n (log.note t .capture) ∧ m.value.toNat = t ∧
      Pending (behind view i .capture t m) seen (log.note t .capture) (.first m.value) := by
  have hfloor : log.floor ≤ t := h.floor_le.trans hl.le
  have hval : m.value.toNat = t := hl.good.1
  refine ⟨⟨hfloor, hl.capture_le rfl⟩, hval, h.seen_le, h.floor_le.trans ((le_behind _ _ _ _ _).cur _), ?_⟩
  intro c hc
  obtain rfl := Option.some.inj hc
  refine ⟨hval.symm, hval.symm ▸ hfloor, ?_⟩
  rw [hval]
  exact ThreadView.le_see_self _ _ _ _ _

/-- A call that returns from inside a cell. -/
theorem Pending.returned (h : Pending view seen log pc) (hpc : PcInv vs n view i pc)
    (hne : pc ≠ .capture) :
    Returned n (log.note t pc) ∧ ∃ c, pc.cursor? = some c ∧ (log.note t pc).captured = c.toNat := by
  cases pc with
  | capture => exact absurd rfl hne
  | first c =>
      obtain ⟨hcap, hfloor, -⟩ := h.cursor c rfl
      exact ⟨⟨hcap.symm ▸ hfloor, hcap.symm ▸ hpc.2.1⟩, c, rfl, hcap⟩
  | index c s1 =>
      obtain ⟨hcap, hfloor, -⟩ := h.cursor c rfl
      exact ⟨⟨hcap.symm ▸ hfloor, hcap.symm ▸ hpc.1.2.1⟩, c, rfl, hcap⟩
  | copy c s1 idx staged =>
      obtain ⟨hcap, hfloor, -⟩ := h.cursor c rfl
      exact ⟨⟨hcap.symm ▸ hfloor, hcap.symm ▸ hpc.1.2.1⟩, c, rfl, hcap⟩

/-- What the reader will have heard when the call returns here. -/
theorem Pending.heard (h : Pending view seen log pc) :
    (∀ x ∈ seen, x ≤ (log.note t pc).floor) ∧
      (log.note t pc).captured ≤ (behind view i pc t m).cur .writeCount := by
  refine ⟨by rw [Log.note_floor]; exact h.seen_le, ?_⟩
  cases pc with
  | capture => exact ThreadView.le_see_self _ _ _ _ _
  | first c | index c | copy c =>
      obtain ⟨hcap, -, hle⟩ := h.cursor c rfl
      exact hcap.trans_le (hle.trans ((le_behind _ _ _ _ _).cur _))

omit [NeZero N] in
theorem published_of_begun (hp : published <+: vs) {q : Nat} {v : Payload size}
    (hq : q < published.length) (hv : vs[q]? = some v) : published[q]? = some v := by
  obtain ⟨rest, rfl⟩ := hp
  rwa [List.getElem?_append_left hq] at hv

/-- A validated copy, as an answer. -/
theorem Pending.valid (h : Pending view seen log pc) (hpc : PcInv vs published.length view i pc)
    (hl : Look vs published.length view i pc t m) (hp : published <+: vs) {staged : List UInt64}
    (ho : observe (holding m) i pc = .valid c staged) :
    pc.cursor? = some c ∧ Returned published.length (log.note t pc) ∧
      (log.note t pc).captured = c.toNat ∧ i < c.toNat ∧
      published[c.toNat - 1 - i]? = some (ofWords staged) := by
  have hv := hpc.valid hl.good hl.le hp.length_le ho
  obtain ⟨s1, rfl, -, -⟩ := SeqlockRing.observe_valid ho
  obtain ⟨hret, c', hc', hcap⟩ := h.returned (t := t) hpc (by simp)
  obtain rfl := Option.some.inj hc'
  obtain ⟨hi, hcn, -⟩ := hpc.1
  exact ⟨rfl, hret, hcap, hi, published_of_begun hp (by omega) hv⟩

/-- `Load` at an access. -/
theorem ReaderInv.load_next {out : Payload size}
    (h : ReaderInv vs published view seen (.load out pc log))
    (hl : Look vs published.length view 0 pc t m) (hp : published <+: vs) :
    ReaderInv vs published (behind view 0 pc t m) seen
      (.afterLoad out (log.note t pc)
        (loadOn out (observe (holding m) 0 pc))) := by
  obtain ⟨hpc, hpend⟩ := h
  cases hobs : observe (holding m) 0 pc with
  | captured c =>
      obtain ⟨rfl, rfl⟩ := SeqlockRing.observe_captured hobs
      obtain ⟨hret, hval, hpend'⟩ := hpend.captured hl
      by_cases h0 : m.value = 0
      · rw [loadOn, if_pos h0]
        exact ⟨hret, hval.symm.trans (congrArg UInt64.toNat h0), rfl⟩
      · rw [loadOn, if_neg h0]
        exact ⟨⟨(Word.ne_zero_iff _).mp h0, .of_load hl.good (hl.capture_le rfl)⟩, hpend'⟩
  | zero => exact absurd hobs (hpc.observe_ne_zero hl.good hl.le)
  | odd => exact ⟨trivial, hpend.retry (by rintro rfl; cases hobs)⟩
  | invalid => exact ⟨trivial, hpend.retry (by rintro rfl; cases hobs)⟩
  | progress pc' =>
      obtain ⟨hcur, hne⟩ := SeqlockRing.observe_progress_cursor hobs
      exact ⟨hpc.progress hl.good hl.le hobs, hpend.inside hne hcur⟩
  | valid c staged =>
      obtain ⟨-, hret, hcap, hpos, hv⟩ := hpend.valid hpc hl hp hobs
      exact ⟨hret, hcap.symm ▸ hpos, hcap.symm ▸ hv⟩

/-- A failed attempt of `LoadBounded`, retried or given up. -/
theorem ReaderInv.boundedRetry {out : Payload size} {maxRetries attempt : UInt32}
    (hpend : Pending view seen log pc) (hpc : PcInv vs published.length view 0 pc)
    (hne : pc ≠ .capture) :
    ReaderInv vs published (behind view 0 pc t m) seen
      (.afterLoadBounded out maxRetries (log.note t pc)
        (SeqlockRing.boundedRetry out maxRetries attempt)) := by
  unfold SeqlockRing.boundedRetry
  split_ifs
  · exact ⟨trivial, hpend.retry hne⟩
  · exact ⟨(hpend.returned hpc hne).1, rfl⟩

/-- `LoadBounded` at an access. -/
theorem ReaderInv.loadBounded_next {out : Payload size} {maxRetries attempt : UInt32}
    (h : ReaderInv vs published view seen (.loadBounded out maxRetries ⟨attempt, pc⟩ log))
    (hl : Look vs published.length view 0 pc t m) (hp : published <+: vs) :
    ReaderInv vs published (behind view 0 pc t m) seen
      (.afterLoadBounded out maxRetries (log.note t pc)
        (loadBoundedOn out maxRetries attempt
          (observe (holding m) 0 pc))) := by
  obtain ⟨hpc, hpend⟩ := h
  cases hobs : observe (holding m) 0 pc with
  | captured c =>
      obtain ⟨rfl, rfl⟩ := SeqlockRing.observe_captured hobs
      obtain ⟨hret, hval, hpend'⟩ := hpend.captured hl
      by_cases h0 : m.value = 0
      · rw [loadBoundedOn, if_pos h0]
        exact ⟨hret, hval.symm.trans (congrArg UInt64.toNat h0), rfl⟩
      · rw [loadBoundedOn, if_neg h0]
        exact ⟨⟨(Word.ne_zero_iff _).mp h0, .of_load hl.good (hl.capture_le rfl)⟩, hpend'⟩
  | zero => exact absurd hobs (hpc.observe_ne_zero hl.good hl.le)
  | odd => exact .boundedRetry hpend hpc (by rintro rfl; cases hobs)
  | invalid => exact .boundedRetry hpend hpc (by rintro rfl; cases hobs)
  | progress pc' =>
      obtain ⟨hcur, hne⟩ := SeqlockRing.observe_progress_cursor hobs
      exact ⟨hpc.progress hl.good hl.le hobs, hpend.inside hne hcur⟩
  | valid c staged =>
      obtain ⟨-, hret, hcap, hpos, hv⟩ := hpend.valid hpc hl hp hobs
      exact ⟨hret, hcap.symm ▸ hpos, hcap.symm ▸ hv⟩

/-- The head of `Snapshot`'s walk: one more entry to read, or done. -/
theorem ReaderInv.snapshotNext {out buf : Nat → Payload size} {k taken : Nat}
    (hpend : Pending view seen log (.first c)) (hret : Returned published.length log)
    (hcap : Captured published.length view c) (hle : taken ≤ snapshotLimit N k c)
    (he : Entries published c.toNat out taken buf) :
    ReaderInv vs published view seen
      (.afterSnapshot out k log (SeqlockRing.snapshotNext N k c taken buf)) := by
  have hlim := SeqlockRing.snapshotLimit_eq (N := N) k c
  obtain ⟨hlog, -⟩ := hpend.cursor c rfl
  unfold SeqlockRing.snapshotNext
  split_ifs with hlt
  · refine ⟨⟨by simp only; omega, hcap⟩, hpend, by simp, ?_⟩
    intro c' hc'
    obtain rfl := Option.some.inj hc'
    exact ⟨hlt, he⟩
  · exact ⟨hret, by rw [hlog, ← hlim]; exact hle, by omega, hlog.symm ▸ he⟩

/-- `Snapshot` at an access. -/
theorem ReaderInv.snapshot_next {out buf : Nat → Payload size} {k taken : Nat}
    (h : ReaderInv vs published view seen (.snapshot out k ⟨taken, buf, pc⟩ log))
    (hl : Look vs published.length view taken pc t m) (hp : published <+: vs) :
    ReaderInv vs published (behind view taken pc t m) seen
      (.afterSnapshot out k (log.note t pc)
        (snapshotOn N k taken buf
          (observe (holding m) taken pc))) := by
  obtain ⟨hpc, hpend, h0, hwalk⟩ := h
  dsimp only at hpc hpend h0 hwalk
  -- a walk that ends keeps what it has taken
  have hend (ho : observe (holding m) taken pc = .odd ∨
      observe (holding m) taken pc = .invalid) :
      ReaderInv vs published (behind view taken pc t m) seen
        (.snapped out k (log.note t pc) taken buf) := by
    obtain ⟨hret, c, hc, hcap⟩ := hpend.returned (t := t) hpc (by rintro rfl; simp [observe] at ho)
    have hover := hpc.overwritten hl.good hl.le ho hc
    obtain ⟨hlt, he⟩ := hwalk c hc
    rw [SeqlockRing.snapshotLimit_eq] at hlt
    exact ⟨hret, by rw [hcap]; exact hlt.le, by rw [hcap]; omega, hcap.symm ▸ he⟩
  cases hobs : observe (holding m) taken pc with
  | captured c =>
      obtain ⟨rfl, rfl⟩ := SeqlockRing.observe_captured hobs
      obtain ⟨rfl, rfl⟩ := h0 rfl
      obtain ⟨hret, hval, hpend'⟩ := hpend.captured hl
      exact .snapshotNext hpend' hret (.of_load hl.good (hl.capture_le rfl)) (Nat.zero_le _)
        ⟨by simp, fun _ _ => rfl⟩
  | zero => exact absurd hobs (hpc.observe_ne_zero hl.good hl.le)
  | odd => exact hend (.inl hobs)
  | invalid => exact hend (.inr hobs)
  | progress pc' =>
      obtain ⟨hcur, hne⟩ := SeqlockRing.observe_progress_cursor hobs
      refine ⟨hpc.progress hl.good hl.le hobs, hpend.inside hne hcur, ?_, ?_⟩
      · rintro rfl
        cases pc with
        | capture => exact absurd rfl hne
        | _ => simp [ReadPc.cursor?] at hcur
      · dsimp only
        rw [hcur]
        exact hwalk
  | valid c staged =>
      obtain ⟨hc, hret, hcap, hpos, hv⟩ := hpend.valid hpc hl hp hobs
      obtain ⟨hlt, he⟩ := hwalk c hc
      obtain ⟨s1, rfl, -, -⟩ := SeqlockRing.observe_valid hobs
      exact .snapshotNext (hpend.inside (by simp) rfl) hret (hpc.1.2.mono le_rfl (le_behind _ _ _ _ _)) hlt
        (he.take hv)

end

end XmBase.Concurrency.WeakRing
