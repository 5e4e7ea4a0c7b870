import XmBase.Concurrency.RingInv
/-!
# XmBase.Concurrency.RingReader

**What a paused reader can rely on, and what its validation proves.**

A reader between its two loads of a cell's sequence knows nothing about the
cell except relative to that sequence: if it still is `s1`, everything copied
so far is still what the cell holds (`Window`). The writing side keeps this
because it changes a cell's contents only while the sequence is odd and only
ever raises the sequence (`Rely`).

The one exception is `RepairAfterWriterCrash`, which sets the sequence back to
zero, so that later stores run through values already seen. All facts here are
therefore relative to the number of resets at the first load, and a reader
whose second load finds `s1` again after a reset (`SpansReset`) is the one
reader nothing is claimed about.
-/

namespace XmBase.Concurrency.SeqlockRing

open Bytes (toWords ofWords)

variable {N size : Nat} [NeZero N] {ι : Type} [DecidableEq ι]
  {m m' : Mem N size} {h h' : History N size} {wr wr' : Writer size}

/-! ### The rely relation

A reader is paused between any two of its accesses, and meanwhile the writing side makes
any number of moves. `Rely` is what one move can do to the cells and the history; what a
reader knows has to be stable under it. -/

/-- What can have happened to the ring between two of a reader's accesses. `frozen` is the
seqlock protocol in one line: a cell with the same even sequence has the same contents. -/
structure Rely (m : Mem N size) (h : History N size) (m' : Mem N size) (h' : History N size) :
    Prop where
  published : h.published <+: h'.published
  begun : h.begun ≤ h'.begun
  resets : ∀ j, h.resets j ≤ h'.resets j
  seq_le : ∀ {j}, h'.resets j = h.resets j → (m (.seq j)).toNat ≤ (m' (.seq j)).toNat
  frozen : ∀ {j}, h'.resets j = h.resets j → m' (.seq j) = m (.seq j) →
    (m (.seq j)).toNat % 2 = 0 →
    m' (.index j) = m (.index j) ∧ ∀ i, m' (.words j i) = m (.words j i)

omit [NeZero N] in
theorem Rely.of_mem_eq (hp : h.published <+: h'.published) (hb : h.begun ≤ h'.begun)
    (hr : h'.resets = h.resets) (hm : ∀ l, l ≠ .writeCount → m' l = m l) : Rely m h m' h' where
  published := hp
  begun := hb
  resets := fun j => by rw [hr]
  seq_le := fun _ => by rw [hm _ (by simp)]
  frozen := fun _ _ _ => ⟨hm _ (by simp), fun _ => hm _ (by simp)⟩

omit [NeZero N] in
/-- A write to cell `f` that raises its sequence, or is made while it is odd. -/
theorem Rely.of_update {l : Loc N size} {x : UInt64} {f : Fin N}
    (hp : h'.published = h.published) (hb : h.begun ≤ h'.begun) (hr : h'.resets = h.resets)
    (hl : l.cell? = some f)
    (hseq : (m (.seq f)).toNat < (Function.update m l x (.seq f)).toNat ∨
      (Function.update m l x (.seq f) = m (.seq f) ∧ (m (.seq f)).toNat % 2 = 1)) :
    Rely m h (Function.update m l x) h' where
  published := by rw [hp]
  begun := hb
  resets := fun j => by rw [hr]
  seq_le := by
    intro j _
    by_cases hj : j = f
    · subst hj
      rcases hseq with hlt | ⟨heq, -⟩
      · exact hlt.le
      · rw [heq]
    · rw [update_of_cell_ne (by rw [hl]; exact fun h => hj (Option.some.inj h))]
  frozen := by
    intro j _ hsame heven
    by_cases hj : j = f
    · subst hj
      rcases hseq with hlt | ⟨-, hodd⟩
      · rw [hsame] at hlt
        exact absurd hlt (Nat.lt_irrefl _)
      · omega
    · have hne : some j ≠ l.cell? := by rw [hl]; exact fun h => hj (Option.some.inj h)
      exact ⟨update_of_cell_ne hne, fun i => update_of_cell_ne hne⟩

/-- **Every move of the writing side is within the rely relation.** -/
theorem WriterMove.rely (hmove : WriterMove m h wr m' h' wr') (hi : Inv m h wr)
    (hcalls : h.calls < 2 ^ 63) : Rely m h m' h' := by
  cases hmove with
  | storeOdd v idx s =>
      obtain ⟨hlt, hquiet, hidx, rfl⟩ := hi.phase
      have hle := hi.seq_le (cellOf h.published.length)
      rw [hi.cell_eq hidx]
      refine .of_update rfl (Nat.le_succ _) rfl rfl (Or.inl ?_)
      rw [Function.update_self, Word.toNat_add_of_lt (by simp; omega)]
      exact Nat.lt_succ_self _
  | storeIndex v idx s =>
      obtain ⟨hidx, hfl⟩ := hi.phase
      have hlt := hfl.lt hi hcalls
      rw [hi.cell_eq hidx]
      -- the cell changes under an odd sequence, which no reader accepts
      refine .of_update rfl (Nat.le_refl _) rfl rfl (Or.inr ⟨Function.update_of_ne (by simp) _ _, ?_⟩)
      exact hfl.odd hlt
  | storeWord v idx s i hi' =>
      obtain ⟨hidx, hfl, -, -⟩ := hi.phase
      have hlt := hfl.lt hi hcalls
      rw [hi.cell_eq hidx]
      refine .of_update rfl (Nat.le_refl _) rfl rfl (Or.inr ⟨Function.update_of_ne (by simp) _ _, ?_⟩)
      exact hfl.odd hlt
  | storeEven v idx s i hi' =>
      obtain ⟨hidx, hfl, -, -⟩ := hi.phase
      have hlt := hfl.lt hi hcalls
      rw [hi.cell_eq hidx]
      refine .of_update rfl (Nat.le_refl _) rfl rfl (Or.inl ?_)
      rw [Function.update_self, hfl.seq, Word.toNat_add_of_lt (by simp; omega),
        Word.toNat_add_of_lt (by simp; omega)]
      simp
  | storeCount v idx =>
      exact .of_mem_eq (List.prefix_append _ _) (Nat.le_refl _) rfl
        (fun l hl => Function.update_of_ne hl _ _)
  | reset idx =>
      -- a reset is counted, so an unchanged count rules it out for the cell
      have hne : ∀ {j}, (h.afterRepair (.reset idx)).resets j = h.resets j →
          j ≠ cellOf idx.toNat := by
        intro j hj hjf
        rw [hjf] at hj
        simp [History.afterRepair] at hj
      refine ⟨List.prefix_refl _, Nat.le_refl _, ?_, ?_, ?_⟩
      · intro j
        by_cases hj : j = cellOf idx.toNat
        · simp [History.afterRepair, hj]
        · simp [History.afterRepair, Function.update_of_ne hj]
      · intro j hj
        rw [Function.update_of_ne (by simpa using hne hj)]
      · intro j hj _ _
        exact ⟨Function.update_of_ne (by simp) _ _, fun i => Function.update_of_ne (by simp) _ _⟩
  | _ => exact .of_mem_eq (List.prefix_refl _) (Nat.le_refl _) rfl (fun _ _ => rfl)

/-! ### The reader's window

Between the two loads of a sequence the words are copied one by one, possibly from different
stores. The copy is only worth something if the sequence has not moved, so it is recorded
under that condition from the start. -/

/-- The copy of cell `j` made since its sequence was `s1` and `e` resets had happened: `D`
is what has been copied. `e` is the number of resets at the first load; after a further one
the window says nothing. -/
def Window (m : Mem N size) (h : History N size) (j : Fin N) (e : Nat) (s1 : UInt64)
    (D : Mem N size → Prop) : Prop :=
  e ≤ h.resets j ∧
    (h.resets j = e → s1.toNat ≤ (m (.seq j)).toNat ∧ (m (.seq j) = s1 → D m))

omit [NeZero N] in
theorem Window.rely {j : Fin N} {e : Nat} {s1 : UInt64} {D : Mem N size → Prop}
    (hw : Window m h j e s1 D) (heven : s1.toNat % 2 = 0) (hr : Rely m h m' h')
    (hD : m' (.index j) = m (.index j) → (∀ i, m' (.words j i) = m (.words j i)) → D m → D m') :
    Window m' h' j e s1 D := by
  obtain ⟨hle, hcond⟩ := hw
  refine ⟨hle.trans (hr.resets j), ?_⟩
  intro he
  have hsame : h.resets j = e := le_antisymm (he ▸ hr.resets j) hle
  have hres : h'.resets j = h.resets j := by rw [he, hsame]
  obtain ⟨hs1, hdata⟩ := hcond hsame
  have hmono := hr.seq_le hres
  refine ⟨hs1.trans hmono, ?_⟩
  intro hseq
  -- the sequence only grows, so finding `s1` again means it never moved
  have hmid : m (.seq j) = s1 := by
    apply UInt64.toNat_inj.mp
    rw [hseq] at hmono
    omega
  obtain ⟨hidx, hwords⟩ := hr.frozen hres (by rw [hseq, hmid]) (by rw [hmid]; exact heven)
  exact hD hidx hwords (hdata hmid)

/-- What the word loop has copied out of cell `j`. `staged` grows at its end, in the order
of the word loop. -/
def Copied (j : Fin N) (idx : UInt64) (staged : List UInt64) (m : Mem N size) : Prop :=
  idx = m (.index j) ∧ ∀ i : Fin (kWords size), i.val < staged.length →
    staged[i.val]? = some (m (.words j i))

/-- What a call that has taken `i` entries knows at its program counter. The later the
program counter the more is known; `capture` starts from nothing again. -/
def PcInv (m : Mem N size) (h : History N size) (i e : Nat) : ReadPc → Prop
  | .capture => True
  | .first c => i < c.toNat ∧ c.toNat ≤ h.published.length
  | .index c s1 => (i < c.toNat ∧ c.toNat ≤ h.published.length) ∧
      (s1 ≠ 0 ∧ s1.toNat % 2 = 0) ∧ Window m h (readCell c i) e s1 fun _ => True
  | .copy c s1 idx staged => (i < c.toNat ∧ c.toNat ≤ h.published.length) ∧
      (s1 ≠ 0 ∧ s1.toNat % 2 = 0) ∧ Window m h (readCell c i) e s1 (Copied (readCell c i) idx staged)

/-- The reader's knowledge survives the writing side. It is stated so as to survive: nothing
in it depends on the cursor as it is now. -/
theorem PcInv.rely {i e : Nat} {pc : ReadPc} (hpc : PcInv m h i e pc) (hr : Rely m h m' h') :
    PcInv m' h' i e pc := by
  have hlen := hr.published.length_le
  cases pc with
  | capture => trivial
  | first c => exact ⟨hpc.1, hpc.2.trans hlen⟩
  | index c s1 =>
      obtain ⟨hc, hs1, hw⟩ := hpc
      exact ⟨⟨hc.1, hc.2.trans hlen⟩, hs1, hw.rely hs1.2 hr (fun _ _ _ => trivial)⟩
  | copy c s1 idx staged =>
      obtain ⟨hc, hs1, hw⟩ := hpc
      refine ⟨⟨hc.1, hc.2.trans hlen⟩, hs1, hw.rely hs1.2 hr ?_⟩
      rintro hidx hwords ⟨h1, h2⟩
      exact ⟨by rw [h1, hidx], fun i hi => by rw [h2 i hi, hwords i]⟩

/-- The reader's own progress inside a cell. -/
theorem PcInv.progress {i : Nat} {pc pc' : ReadPc} {log : CallLog}
    (hpc : PcInv m h i log.epoch pc) (ho : observe m i pc = .progress pc') :
    PcInv m h i (log.note m h i pc).epoch pc' := by
  cases pc with
  | capture => simp [observe] at ho
  | first c =>
      simp only [observe] at ho
      split_ifs at ho with h0 h1
      obtain rfl := Outcome.progress.inj ho
      rw [Word.and_one_ne_zero] at h1
      exact ⟨hpc, ⟨h0, by omega⟩, Nat.le_refl _, fun _ => ⟨Nat.le_refl _, fun _ => trivial⟩⟩
  | index c s1 =>
      obtain rfl := Outcome.progress.inj ho
      obtain ⟨hc, hs1, hle, hw⟩ := hpc
      exact ⟨hc, hs1, hle, fun he => ⟨(hw he).1, fun _ => ⟨rfl, by simp⟩⟩⟩
  | copy c s1 idx staged =>
      simp only [observe] at ho
      split_ifs at ho with hlt hv
      obtain rfl := Outcome.progress.inj ho
      obtain ⟨hc, hs1, hle, hw⟩ := hpc
      refine ⟨hc, hs1, hle, fun he => ⟨(hw he).1, fun hs => ?_⟩⟩
      obtain ⟨hidx, hwords⟩ := (hw he).2 hs
      refine ⟨hidx, ?_⟩
      intro k hk
      rw [List.length_append, List.length_singleton] at hk
      rcases Nat.lt_or_ge k.val staged.length with hlt' | hge
      · rw [List.getElem?_append_left hlt']
        exact hwords k hlt'
      · have hk' : k = ⟨staged.length, hlt⟩ := Fin.ext (by simp only; omega)
        subst hk'
        simp

/-! ### What an access reveals about the program counter

The outcomes of `observe` the other way round: which program counter, and which contents of
the memory, an outcome can have come from. -/

/-- The cursor the current iteration captured. -/
def ReadPc.cursor? : ReadPc → Option UInt64
  | .capture => none
  | .first c | .index c _ | .copy c _ _ _ => some c

theorem observe_captured {i : Nat} {pc : ReadPc} {c : UInt64}
    (ho : observe m i pc = .captured c) : pc = .capture ∧ c = m .writeCount := by
  cases pc with
  | capture => exact ⟨rfl, (Outcome.captured.inj ho).symm⟩
  | first c => simp only [observe] at ho; split_ifs at ho
  | index c s1 => simp [observe] at ho
  | copy c s1 idx staged => simp only [observe] at ho; split_ifs at ho

theorem observe_progress_cursor {i : Nat} {pc pc' : ReadPc}
    (ho : observe m i pc = .progress pc') : pc'.cursor? = pc.cursor? ∧ pc ≠ .capture := by
  cases pc with
  | capture => simp [observe] at ho
  | first c =>
      simp only [observe] at ho
      split_ifs at ho
      obtain rfl := Outcome.progress.inj ho
      exact ⟨rfl, by simp⟩
  | index c s1 =>
      obtain rfl := Outcome.progress.inj ho
      exact ⟨rfl, by simp⟩
  | copy c s1 idx staged =>
      simp only [observe] at ho
      split_ifs at ho
      obtain rfl := Outcome.progress.inj ho
      exact ⟨rfl, by simp⟩

/-- Only the first load of a sequence reads a cell as never written. -/
theorem observe_zero {i : Nat} {pc : ReadPc} :
    observe m i pc = .zero ↔ ∃ c, pc = .first c ∧ m (.seq (readCell c i)) = 0 := by
  cases pc with
  | capture => simp [observe]
  | first c =>
      simp only [observe, ReadPc.first.injEq, exists_eq_left']
      split_ifs with h0 h1 <;> simp [h0]
  | index c s1 => simp [observe]
  | copy c s1 idx staged =>
      simp only [observe]
      split_ifs <;> simp

/-- A validated copy: the second sequence is the first, and the index is the
wanted position. -/
theorem observe_valid {i : Nat} {pc : ReadPc} {c : UInt64} {staged : List UInt64}
    (ho : observe m i pc = .valid c staged) :
    ∃ s1, pc = .copy c s1 (snapshotWant c i) staged ∧ kWords size ≤ staged.length ∧
      m (.seq (readCell c i)) = s1 := by
  cases pc with
  | capture => simp [observe] at ho
  | first c => simp only [observe] at ho; split_ifs at ho
  | index c s1 => simp [observe] at ho
  | copy c' s1 idx staged' =>
      simp only [observe] at ho
      split_ifs at ho with hlt hv
      obtain ⟨rfl, rfl⟩ := Outcome.valid.inj ho
      exact ⟨s1, by rw [hv.2], by omega, hv.1⟩

theorem CallLog.note_captures {log : CallLog} {i : Nat} {pc : ReadPc}
    (hpc : pc ≠ .capture) : (log.note m h i pc).captures = log.captures := by
  cases pc with
  | capture => exact absurd rfl hpc
  | _ => rfl

@[simp] theorem CallLog.note_start {log : CallLog} {i : Nat} {pc : ReadPc} :
    (log.note m h i pc).start = log.start := by
  cases pc <;> rfl

/-- The position iteration `i` reads, below the cursor. -/
theorem toNat_snapshotWant {c : UInt64} {i : Nat} (hi : i < c.toNat) :
    (snapshotWant c i).toNat = c.toNat - 1 - i := by
  have hc := c.toNat_lt
  have hof : (UInt64.ofNat i).toNat = i := by
    rw [UInt64.toNat_ofNat']
    exact Nat.mod_eq_of_lt (by omega)
  have h1 : (c - 1).toNat = c.toNat - 1 := Word.toNat_sub_of_le (by simp; omega)
  rw [snapshotWant, Word.toNat_sub_of_le (by rw [hof, h1]; omega), hof, h1]

/-- The cell a first load is about to read was published, so it reads as never
written exactly while it is retracted. -/
theorem Inv.zero_readCell {i : Nat} {c : UInt64} (hi : Inv m h wr)
    (hpc : i < c.toNat ∧ c.toNat ≤ h.published.length) :
    m (.seq (readCell c i)) = 0 ↔ h.retracted (readCell c i) = true := by
  obtain ⟨hic, hcn⟩ := hpc
  rw [readCell, toNat_snapshotWant hic]
  exact hi.zero_iff (by omega)

/-! ### Validation

The second load closes the window: the sequence is the first one again, so the copy is what
the cell holds now, and the cell is sound. What is left over is a reset in between, after
which the sequence may have come back to the old value with other contents. -/

/-- The entries taken so far, position and argument log of a call inside. -/
def Reader.call? : Reader size → Option (Nat × ReadPc × CallLog)
  | .load _ pc log => some (0, pc, log)
  | .loadBounded _ _ frame log => some (0, frame.pc, log)
  | .snapshot _ _ frame log => some (frame.taken, frame.pc, log)
  | _ => none

/-- The reader is about to load a cell's sequence for the second time and will accept its
copy, although `RepairAfterWriterCrash` reset that cell since the first load. It speaks of
the state before the reader's access, so it can be a condition on steps. -/
def SpansReset (m : Mem N size) (h : History N size) (rd : Reader size) : Prop :=
  match rd.call? with
  | some (i, .copy c s1 idx staged, log) =>
      kWords size ≤ staged.length ∧ m (.seq (readCell c i)) = s1 ∧ idx = snapshotWant c i ∧
        h.resets (readCell c i) ≠ log.epoch
  | _ => False

instance (m : Mem N size) (h : History N size) (rd : Reader size) : Decidable (SpansReset m h rd) :=
  match hc : rd.call? with
  | some (_, .copy .., _) => decidable_of_iff _ (by rw [SpansReset, hc])
  | some (_, .capture, _) | some (_, .first _, _) | some (_, .index .., _) | none =>
      .isFalse (by rw [SpansReset, hc]; exact id)

/-- **A validated copy is the value published at the wanted position**, unless
the read spans a reset. -/
theorem PcInv.valid {rd : Reader size} {i : Nat} {pc : ReadPc} {log : CallLog} {c : UInt64}
    {staged : List UInt64} (hpc : PcInv m h i log.epoch pc)
    (hcall : rd.call? = some (i, pc, log)) (hno : ¬ SpansReset m h rd)
    (hsound : ∀ j, SoundAt m h.published j) (ho : observe m i pc = .valid c staged) :
    h.published[c.toNat - 1 - i]? = some (ofWords staged) := by
  obtain ⟨s1, rfl, hfull, hseq⟩ := observe_valid ho
  obtain ⟨⟨hic, hcn⟩, ⟨hne, heven⟩, -, hw⟩ := hpc
  have hepoch : h.resets (readCell c i) = log.epoch := by
    by_contra hne'
    rw [SpansReset, hcall] at hno
    exact hno ⟨hfull, hseq, rfl, hne'⟩
  obtain ⟨hidx, hwords⟩ := (hw hepoch).2 hseq
  have hq : (m (.index (readCell c i))).toNat = c.toNat - 1 - i := by
    rw [← hidx, toNat_snapshotWant hic]
  rw [← hq]
  refine (hsound (readCell c i)).published_of_copied (by rw [hseq]; exact hne)
    (by rw [hseq]; exact heven) (by omega) ?_
  intro k
  exact hwords k (by have := k.isLt; omega)

end XmBase.Concurrency.SeqlockRing
