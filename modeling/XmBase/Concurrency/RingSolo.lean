import XmBase.Concurrency.RingAnswers
/-!
# XmBase.Concurrency.RingSolo

**Each verb with nobody else moving.**

* `Store` cut after any number of accesses (`StoreAt`): the cursor and all cells
  but one are as they were, and the one is described by the program counter.
  Nothing here depends on the sequences not wrapping.
* `RepairAfterWriterCrash`: it resets the in-flight cell if its sequence is odd.
* The reads: on memory that does not move, one iteration ends in
  `soloOutcome`, a function of the cursor, the cell's sequence and its index.
-/

namespace XmBase.Concurrency.SeqlockRing

open Atomic (Access Code)
open Bytes (toWords ofWords)

variable {N size : Nat} [NeZero N] {ι : Type} [DecidableEq ι] {m m' : Mem N size}

/-! ### `Store`

A store that is cut is described by where it stands: nothing is written before the odd
sequence, the cell alone is written up to (W2), and (W3) writes the cursor. Since the
description is by the program counter, it covers a kill between any two accesses. -/

/-- The cell the next store goes to. -/
def nextCell (m : Mem N size) : Fin N := cellOf (m .writeCount).toNat

/-- `m'` is `m` except inside the cell the store goes to, whose sequence has been
raised by `d`. -/
structure Raised (m m' : Mem N size) (d : UInt64) : Prop where
  frame : ∀ l, l.cell? ≠ some (nextCell m) → m' l = m l
  seq : m' (.seq (nextCell m)) = m (.seq (nextCell m)) + d

/-- The memory a solo `Store` on `m` has made when it stands at a program counter, or has
returned. The first three cases have written nothing, so a kill there leaves no trace. -/
def StoreAt (m m' : Mem N size) : StorePc ⊕ Unit → Prop
  | .inl .loadCount => m' = m
  | .inl (.loadSeq idx) => m' = m ∧ idx = m .writeCount
  | .inl (.storeOdd idx s) => m' = m ∧ idx = m .writeCount ∧ s = m (.seq (nextCell m))
  | .inl (.storeIndex idx s) => Raised m m' 1 ∧ idx = m .writeCount ∧ s = m (.seq (nextCell m))
  | .inl (.copy idx s i) => Raised m m' 1 ∧ idx = m .writeCount ∧ s = m (.seq (nextCell m)) ∧
      i ≤ kWords size ∧ m' (.index (nextCell m)) = idx
  | .inl (.storeCount idx) => Raised m m' 2 ∧ idx = m .writeCount ∧ m' (.index (nextCell m)) = idx
  | .inr () => (∀ l, l ≠ .writeCount → l.cell? ≠ some (nextCell m) → m' l = m l) ∧
      m' .writeCount = m .writeCount + 1 ∧
      m' (.seq (nextCell m)) = m (.seq (nextCell m)) + 2 ∧
      m' (.index (nextCell m)) = m .writeCount

/-- Accesses a solo `Store` has made when it stands at a program counter. -/
def storeAccesses (size : Nat) : StorePc ⊕ Unit → Nat
  | .inl .loadCount => 0
  | .inl (.loadSeq _) => 1
  | .inl (.storeOdd ..) => 2
  | .inl (.storeIndex ..) => 3
  | .inl (.copy _ _ i) => i + 4
  | .inl (.storeCount _) => kWords size + 5
  | .inr () => kWords size + 6

theorem Raised.update {d x : UInt64} {l : Loc N size} (hr : Raised m m' d)
    (hl : l.cell? = some (nextCell m)) (hseq : l ≠ .seq (nextCell m)) :
    Raised m (Function.update m' l x) d where
  frame := by
    intro l' hl'
    rw [Function.update_of_ne (by rintro rfl; exact hl' hl)]
    exact hr.frame l' hl'
  seq := by rw [Function.update_of_ne hseq.symm, hr.seq]

/-- One access of a solo `Store`. -/
theorem StoreAt.step {v : Payload size} {pc : StorePc} (hs : StoreAt m m' (.inl pc)) :
    StoreAt m ((store v pc).exec m').1 ((store v pc).exec m').2 ∧
    storeAccesses size ((store v pc).exec m').2 = storeAccesses size (.inl pc) + 1 := by
  cases pc with
  | loadCount =>
      obtain rfl := hs
      exact ⟨⟨rfl, rfl⟩, rfl⟩
  | loadSeq idx =>
      obtain ⟨rfl, rfl⟩ := hs
      exact ⟨⟨rfl, rfl, rfl⟩, rfl⟩
  | storeOdd idx s =>
      obtain ⟨rfl, rfl, rfl⟩ := hs
      refine ⟨⟨⟨?_, Function.update_self ..⟩, rfl, rfl⟩, rfl⟩
      intro l hl
      exact Function.update_of_ne (by rintro rfl; exact hl rfl) _ _
  | storeIndex idx s =>
      obtain ⟨hr, rfl, rfl⟩ := hs
      exact ⟨⟨hr.update rfl (by simp), rfl, rfl, Nat.zero_le _, Function.update_self ..⟩, rfl⟩
  | copy idx s i =>
      obtain ⟨hr, rfl, rfl, hi, hidx⟩ := hs
      by_cases hlt : i < kWords size
      · simp only [store, dif_pos hlt, Access.exec_store]
        refine ⟨⟨hr.update rfl (by simp), rfl, rfl, hlt, ?_⟩, rfl⟩
        rw [Function.update_of_ne (by simp)]
        exact hidx
      · simp only [store, dif_neg hlt, Access.exec_store]
        refine ⟨⟨⟨?_, Function.update_self ..⟩, rfl, ?_⟩, by simp only [storeAccesses]; omega⟩
        · intro l hl
          rw [Function.update_of_ne (by rintro rfl; exact hl rfl)]
          exact hr.frame l hl
        · rw [Function.update_of_ne (by simp)]
          exact hidx
  | storeCount idx =>
      obtain ⟨hr, rfl, hidx⟩ := hs
      simp only [store, Access.exec_store]
      refine ⟨⟨?_, Function.update_self .., ?_, ?_⟩, rfl⟩
      · intro l hl hcell
        rw [Function.update_of_ne hl]
        exact hr.frame l hcell
      · rw [Function.update_of_ne (by simp), hr.seq]
      · rw [Function.update_of_ne (by simp), hidx]

theorem StoreAt.accesses_le {t : StorePc ⊕ Unit} (hs : StoreAt m m' t) :
    storeAccesses size t ≤ kWords size + 6 := by
  rcases t with pc | _
  · cases pc with
    | copy idx s i =>
        have hi := hs.2.2.2.1
        simp only [storeAccesses]
        omega
    | _ => simp only [storeAccesses]; omega
  · exact Nat.le_refl _

theorem StoreAt.alone {v : Payload size} (k : Nat) {t : StorePc ⊕ Unit} (hs : StoreAt m m' t) :
    StoreAt m ((store v).alone k m' t).1 ((store v).alone k m' t).2 ∧
    storeAccesses size ((store v).alone k m' t).2 =
      min (storeAccesses size t + k) (kWords size + 6) := by
  induction k generalizing m' t with
  | zero =>
      refine ⟨hs, ?_⟩
      rw [Code.alone_zero, Nat.add_zero, Nat.min_eq_left hs.accesses_le]
  | succ k ih =>
      rcases t with pc | _
      · obtain ⟨hs', hacc⟩ := hs.step (v := v)
        obtain ⟨h1, h2⟩ := ih hs'
        refine ⟨h1, ?_⟩
        rw [Code.alone_succ, h2, hacc, Nat.add_right_comm, Nat.add_assoc]
      · rw [Code.alone_inr]
        refine ⟨hs, ?_⟩
        simp only [storeAccesses]
        omega

/-- `Store(value)` cut after `k` accesses: the memory, and where it stands. -/
def cutStore (v : Payload size) (k : Nat) (m : Mem N size) : Mem N size × (StorePc ⊕ Unit) :=
  (store v).alone k m (.inl .loadCount)

/-- **A cut `Store`** has touched its own cell only, as far as its program counter
says, and stands after `k` accesses. -/
theorem cutStore_spec (v : Payload size) (k : Nat) (m : Mem N size) :
    StoreAt m (cutStore v k m).1 (cutStore v k m).2 ∧
    storeAccesses size (cutStore v k m).2 = min k (kWords size + 6) := by
  obtain ⟨h1, h2⟩ := StoreAt.alone (v := v) k (show StoreAt m m (.inl .loadCount) from rfl)
  refine ⟨h1, ?_⟩
  rw [show storeAccesses size (.inl .loadCount) = 0 from rfl, Nat.zero_add] at h2
  exact h2

/-- A complete `Store(value)`. -/
def runStore (v : Payload size) (m : Mem N size) : Mem N size := (cutStore v (kWords size + 6) m).1

/-- After its last access the store has returned. -/
theorem cutStore_complete (v : Payload size) (m : Mem N size) :
    (cutStore v (kWords size + 6) m).2 = .inr () := by
  obtain ⟨hs, hacc⟩ := cutStore_spec v (kWords size + 6) m
  rw [Nat.min_self] at hacc
  generalize (cutStore v (kWords size + 6) m).2 = t at hs hacc
  rcases t with pc | _
  · cases pc with
    | copy idx s i =>
        have hi := hs.2.2.2.1
        simp only [storeAccesses] at hacc
        omega
    | _ => simp only [storeAccesses] at hacc; omega
  · rfl

/-- One access earlier it stands before (W3). Everything is written by then, and nothing is
published. -/
theorem cutStore_before_count (v : Payload size) (m : Mem N size) :
    (cutStore v (kWords size + 5) m).2 = .inl (.storeCount (m .writeCount)) := by
  obtain ⟨hs, hacc⟩ := cutStore_spec v (kWords size + 5) m
  generalize (cutStore v (kWords size + 5) m).2 = t at hs hacc
  rcases t with pc | _
  · cases pc with
    | copy idx s i =>
        have hi := hs.2.2.2.1
        simp only [storeAccesses] at hacc
        omega
    | storeCount idx => rw [hs.2.1]
    | _ => simp only [storeAccesses] at hacc; omega
  · simp only [storeAccesses] at hacc
    omega

theorem runStore_spec (v : Payload size) (m : Mem N size) : StoreAt m (runStore v m) (.inr ()) := by
  have hs := (cutStore_spec v (kWords size + 6) m).1
  rw [cutStore_complete] at hs
  exact hs

/-! ### `RepairAfterWriterCrash` -/

/-- A complete `RepairAfterWriterCrash()`. -/
def runRepair (m : Mem N size) : Mem N size :=
  (repairAfterWriterCrash.alone 3 m (.inl .loadCount)).1

/-- The repair resets an odd in-flight cell and does nothing else. -/
theorem runRepair_eq (m : Mem N size) :
    runRepair m = if (m (.seq (nextCell m))).toNat % 2 = 1
      then Function.update m (.seq (nextCell m)) 0 else m := by
  show (repairAfterWriterCrash.alone 1 m (if m (.seq (nextCell m)) &&& 1 ≠ 0
    then .inl (.reset (m .writeCount)) else .inr ())).1 = _
  simp only [Word.and_one_ne_zero]
  by_cases hodd : (m (.seq (nextCell m))).toNat % 2 = 1
  · rw [if_pos hodd, if_pos hodd]
    rfl
  · rw [if_neg hodd, if_neg hodd]
    rfl

/-! ### The reads

The three verbs are one routine with three reactions, so they are run alone together:
`Reads` says that a code makes the accesses of `observe` and reacts by `on`, and `Ends` that
an iteration of it ends in a given result. What that result is, `soloOutcome` says, and it
does not depend on the verb. -/

/-- The payload words of a cell. -/
def cellWords (m : Mem N size) (j : Fin N) : List UInt64 := List.ofFn fun i => m (.words j i)

/-- How a cell read ends that captured `c` and has taken `i` entries, if memory does not
move. The words do not matter for it: memory that does not move cannot tear. -/
def soloOutcome (m : Mem N size) (i : Nat) (c : UInt64) : Outcome :=
  if m (.seq (readCell c i)) = 0 then .zero
  else if m (.seq (readCell c i)) &&& 1 ≠ 0 then .odd
  else if m (.index (readCell c i)) = snapshotWant c i then .valid c (cellWords m (readCell c i))
  else .invalid

section Iteration

variable {τ β : Type} {code : Code (Val N size) τ β} {f : ReadPc → τ} {on : Outcome → τ ⊕ β}
  {i : Nat} {c : UInt64}

/-- `code` reads cells: at `f pc` it makes the access that `observe` describes,
and reacts to the outcome by `on`. -/
structure Reads (code : Code (Val N size) τ β) (f : ReadPc → τ) (on : Outcome → τ ⊕ β)
    (m : Mem N size) (i : Nat) : Prop where
  exec : ∀ pc, (code (f pc)).exec m = (m, on (observe m i pc))
  progress : ∀ pc, on (.progress pc) = .inl (f pc)

/-- Run alone from `pc`, the iteration with cursor `c` ends in `res`, and is not
left before. -/
def Ends (code : Code (Val N size) τ β) (f : ReadPc → τ) (m : Mem N size) (c : UInt64)
    (pc : ReadPc) (res : τ ⊕ β) : Prop :=
  ∃ n, 0 < n ∧ code.alone n m (.inl (f pc)) = (m, res) ∧
    ∀ k < n, ∃ pc', (code.alone k m (.inl (f pc))).2 = .inl (f pc') ∧ pc'.cursor? = some c

theorem Reads.ends_now (hr : Reads code f on m i) (pc : ReadPc) (hpc : pc.cursor? = some c) :
    Ends code f m c pc (on (observe m i pc)) := by
  refine ⟨1, Nat.one_pos, by rw [Code.alone_succ, hr.exec, Code.alone_zero], ?_⟩
  intro k hk
  obtain rfl : k = 0 := by omega
  exact ⟨pc, rfl, hpc⟩

theorem Reads.ends_cons (hr : Reads code f on m i) {pc pc' : ReadPc} {res : τ ⊕ β}
    (hpc : pc.cursor? = some c) (ho : observe m i pc = .progress pc')
    (he : Ends code f m c pc' res) : Ends code f m c pc res := by
  obtain ⟨n, hn, hrun, hin⟩ := he
  have hstep : ∀ k, code.alone (k + 1) m (.inl (f pc)) = code.alone k m (.inl (f pc')) := by
    intro k
    rw [Code.alone_succ, hr.exec, ho, hr.progress]
  refine ⟨n + 1, Nat.succ_pos _, by rw [hstep, hrun], ?_⟩
  intro k hk
  cases k with
  | zero => exact ⟨pc, rfl, hpc⟩
  | succ k =>
      rw [hstep]
      exact hin k (by omega)

/-- The word loop and the second load of the sequence. -/
theorem Reads.ends_copy (hr : Reads code f on m i) (s1 idx : UInt64) (d : Nat) :
    ∀ staged : List UInt64, staged.length + d = kWords size →
      Ends code f m c (.copy c s1 idx staged)
        (on (if m (.seq (readCell c i)) = s1 ∧ idx = snapshotWant c i
          then .valid c (staged ++ (cellWords m (readCell c i)).drop staged.length)
          else .invalid)) := by
  induction d with
  | zero =>
      intro staged hlen
      have hfull : ¬ staged.length < kWords size := by omega
      have hdrop : (cellWords m (readCell c i)).drop staged.length = [] :=
        List.drop_eq_nil_of_le (by rw [cellWords, List.length_ofFn]; omega)
      rw [hdrop, List.append_nil]
      have he := hr.ends_now (c := c) (.copy c s1 idx staged) rfl
      rw [observe, dif_neg hfull] at he
      exact he
  | succ d ih =>
      intro staged hlen
      have hlt : staged.length < kWords size := by omega
      refine hr.ends_cons rfl (by rw [observe, dif_pos hlt]) ?_
      have hget : (cellWords m (readCell c i)).drop staged.length =
          m (.words (readCell c i) ⟨staged.length, hlt⟩) ::
            (cellWords m (readCell c i)).drop (staged.length + 1) := by
        rw [List.drop_eq_getElem_cons (by rw [cellWords, List.length_ofFn]; exact hlt)]
        simp only [cellWords, List.getElem_ofFn]
      have he := ih (staged ++ [m (.words (readCell c i) ⟨staged.length, hlt⟩)])
        (by rw [List.length_append, List.length_singleton]; omega)
      rw [List.append_assoc, List.length_append, List.length_singleton, List.singleton_append,
        ← hget] at he
      exact he

/-- **One solo iteration** ends in `soloOutcome`. -/
theorem Reads.ends_first (hr : Reads code f on m i) :
    Ends code f m c (.first c) (on (soloOutcome m i c)) := by
  by_cases h0 : m (.seq (readCell c i)) = 0
  · have he := hr.ends_now (c := c) (.first c) rfl
    rw [observe, if_pos h0] at he
    rw [soloOutcome, if_pos h0]
    exact he
  · by_cases h1 : m (.seq (readCell c i)) &&& 1 ≠ 0
    · have he := hr.ends_now (c := c) (.first c) rfl
      rw [observe, if_neg h0, if_pos h1] at he
      rw [soloOutcome, if_neg h0, if_pos h1]
      exact he
    · refine hr.ends_cons rfl (by rw [observe, if_neg h0, if_neg h1]) ?_
      refine hr.ends_cons rfl (by rw [observe]) ?_
      have he := hr.ends_copy (c := c) (m (.seq (readCell c i))) (m (.index (readCell c i)))
        (kWords size) [] (by simp)
      simp only [List.nil_append, List.length_nil, List.drop_zero, true_and] at he
      rw [soloOutcome, if_neg h0, if_neg h1]
      exact he

/-- The capture, then an iteration that ends in `res`. -/
theorem Reads.ends_capture (hr : Reads code f on m i) (head : τ → Prop)
    (hcap : on (.captured (m .writeCount)) = .inl (f (.first (m .writeCount))))
    (hhead : ∀ pc, pc ≠ .capture → ¬ head (f pc)) :
    ∃ n, 0 < n ∧ code.alone n m (.inl (f .capture)) = (m, on (soloOutcome m i (m .writeCount))) ∧
      ∀ k, 0 < k → k < n → ∀ s', (code.alone k m (.inl (f .capture))).2 = .inl s' → ¬ head s' := by
  obtain ⟨n, -, hrun, hin⟩ := hr.ends_first (c := m .writeCount)
  have hstep : ∀ k, code.alone (k + 1) m (.inl (f .capture)) =
      code.alone k m (.inl (f (.first (m .writeCount)))) := by
    intro k
    rw [Code.alone_succ, hr.exec, observe, hcap]
  refine ⟨n + 1, Nat.succ_pos _, by rw [hstep, hrun], ?_⟩
  intro k hk hlt s' hs'
  obtain ⟨k, rfl⟩ := Nat.exists_eq_add_of_lt hk
  rw [Nat.zero_add, hstep] at hs'
  obtain ⟨pc', hpc', hcur⟩ := hin k (by omega)
  rw [hpc'] at hs'
  obtain rfl := Sum.inl.inj hs'
  exact hhead pc' (by rintro rfl; simp [ReadPc.cursor?] at hcur)

end Iteration

theorem load_reads (m : Mem N size) (out : Payload size) :
    Reads (load out) id (loadOn out) m 0 where
  exec := load_exec m out
  progress := fun _ => rfl

theorem loadBounded_reads (m : Mem N size) (out : Payload size) (maxRetries attempt : UInt32) :
    Reads (loadBounded out maxRetries) (.mk attempt) (loadBoundedOn out maxRetries attempt) m 0 where
  exec := loadBounded_exec m out maxRetries attempt
  progress := fun _ => rfl

/-- No solo iteration on `m` can end in an answer: something is published, its cell does not
read as never written, and yet it is mid-store or holds another position. A reader of such a
ring goes round its loop for ever, and the bounded verb stalls, since the writer that could
change the memory is gone. -/
def Stuck (m : Mem N size) : Prop :=
  m .writeCount ≠ 0 ∧ m (.seq (readCell (m .writeCount) 0)) ≠ 0 ∧
    ((m (.seq (readCell (m .writeCount) 0))).toNat % 2 = 1 ∨
      m (.index (readCell (m .writeCount) 0)) ≠ m .writeCount - 1)

theorem stuck_iff (hne : m .writeCount ≠ 0) :
    Stuck m ↔ soloOutcome m 0 (m .writeCount) = .odd ∨ soloOutcome m 0 (m .writeCount) = .invalid := by
  simp only [Stuck, soloOutcome, Word.and_one_ne_zero, snapshotWant_zero]
  split_ifs <;> simp_all

/-- `Load`, alone, returns in its first iteration unless the ring is stuck. -/
theorem load_returnsInRound_iff (m : Mem N size) (out : Payload size) :
    (load out).ReturnsInRound (· = .capture) m .capture (fun _ => True) ↔ ¬ Stuck m := by
  have hr := load_reads m out
  by_cases h0 : m .writeCount = 0
  · refine iff_of_true ⟨1, m, (false, out), ?_, trivial, by omega⟩ (fun hs => hs.1 h0)
    rw [Code.alone_succ, load_exec, observe, loadOn, if_pos h0, Code.alone_zero]
  · obtain ⟨n, hn, hrun, hin⟩ := hr.ends_capture (· = .capture)
      (by rw [loadOn, if_neg h0, id]) (fun pc hpc => hpc)
    rw [stuck_iff h0]
    cases ho : soloOutcome m 0 (m .writeCount) with
    | odd =>
        rw [ho] at hrun
        exact iff_of_false (Code.not_returnsInRound hn hrun rfl) (by simp)
    | invalid =>
        rw [ho] at hrun
        exact iff_of_false (Code.not_returnsInRound hn hrun rfl) (by simp)
    | zero =>
        rw [ho] at hrun
        exact iff_of_true ⟨n, m, _, hrun, trivial, hin⟩ (by simp)
    | valid c staged =>
        rw [ho] at hrun
        exact iff_of_true ⟨n, m, _, hrun, trivial, hin⟩ (by simp)
    | captured c => simp only [soloOutcome] at ho; split_ifs at ho
    | progress pc => simp only [soloOutcome] at ho; split_ifs at ho

/-- `LoadBounded`, alone, answers in its first attempt unless the ring is stuck. -/
theorem loadBounded_returnsInRound_iff (m : Mem N size) (out : Payload size) (maxRetries : UInt32) :
    (loadBounded out maxRetries).ReturnsInRound (·.pc = .capture) m ⟨0, .capture⟩
      (fun res => res.1 ≠ .kStalled) ↔ ¬ Stuck m := by
  have hr := loadBounded_reads m out maxRetries 0
  by_cases h0 : m .writeCount = 0
  · refine iff_of_true ⟨1, m, (.kEmpty, out), ?_, by simp, by omega⟩ (fun hs => hs.1 h0)
    rw [Code.alone_succ, loadBounded_exec, observe, loadBoundedOn, if_pos h0, Code.alone_zero]
  · obtain ⟨n, hn, hrun, hin⟩ := hr.ends_capture (·.pc = .capture)
      (by rw [loadBoundedOn, if_neg h0]) (fun pc hpc => hpc)
    -- a failed attempt goes back to the loop head or gives up
    have hretry : ∀ {t}, (loadBounded out maxRetries).alone n m (.inl ⟨0, .capture⟩) = (m, t) →
        t = boundedRetry out maxRetries 0 →
        ¬ (loadBounded out maxRetries).ReturnsInRound (·.pc = .capture) m ⟨0, .capture⟩
          (fun res => res.1 ≠ .kStalled) := by
      intro t ht hb
      unfold boundedRetry at hb
      split_ifs at hb
      · rw [hb] at ht
        exact Code.not_returnsInRound hn ht rfl
      · rw [hb] at ht
        exact Code.not_returnsInRound_of_returns ⟨n, ht⟩ (by simp)
    rw [stuck_iff h0]
    cases ho : soloOutcome m 0 (m .writeCount) with
    | odd =>
        rw [ho] at hrun
        exact iff_of_false (hretry hrun rfl) (by simp)
    | invalid =>
        rw [ho] at hrun
        exact iff_of_false (hretry hrun rfl) (by simp)
    | zero =>
        rw [ho] at hrun
        exact iff_of_true ⟨n, m, _, hrun, by simp, hin⟩ (by simp)
    | valid c staged =>
        rw [ho] at hrun
        exact iff_of_true ⟨n, m, _, hrun, by simp, hin⟩ (by simp)
    | captured c => simp only [soloOutcome] at ho; split_ifs at ho
    | progress pc => simp only [soloOutcome] at ho; split_ifs at ho

theorem snapshot_reads (m : Mem N size) (k taken : Nat) (out : Nat → Payload size) :
    Reads (snapshot k) (.mk taken out) (snapshotOn N k taken out) m taken where
  exec := snapshot_exec m k taken out
  progress := fun _ => rfl

/-- A solo cell read that validates. -/
theorem soloOutcome_valid {i : Nat} {c c' : UInt64} {staged : List UInt64}
    (ho : soloOutcome m i c = .valid c' staged) :
    c' = c ∧ staged = cellWords m (readCell c i) ∧ m (.seq (readCell c i)) ≠ 0 ∧
      (m (.seq (readCell c i))).toNat % 2 = 0 ∧ m (.index (readCell c i)) = snapshotWant c i := by
  simp only [soloOutcome, Word.and_one_ne_zero] at ho
  split_ifs at ho with h0 h1 h2
  obtain ⟨rfl, rfl⟩ := Outcome.valid.inj ho
  exact ⟨rfl, rfl, h0, by omega, h2⟩

/-- What a validated solo read holds. -/
theorem published_of_soloOutcome {h : History N size} {i : Nat} {c c' : UInt64}
    {staged : List UInt64} (hsound : ∀ j, SoundAt m h.published j) (hic : i < c.toNat)
    (hcn : c.toNat ≤ h.published.length) (ho : soloOutcome m i c = .valid c' staged) :
    h.published[c.toNat - 1 - i]? = some (ofWords staged) := by
  obtain ⟨rfl, rfl, hne, heven, hidx⟩ := soloOutcome_valid ho
  have hq : (m (.index (readCell c' i))).toNat = c'.toNat - 1 - i := by
    rw [hidx, toNat_snapshotWant hic]
  rw [← hq]
  refine (hsound _).published_of_copied hne heven (by omega) ?_
  intro k
  rw [cellWords, List.getElem?_ofFn, dif_pos k.isLt]

/-- A held position validates. Nobody is there who could change the cell between the two
loads. -/
theorem Holds.soloOutcome {i q : Nat} {c : UInt64} {v : Payload size}
    (hh : Holds m (cellOf q) q v) (hic : i < c.toNat) (hq : q = c.toNat - 1 - i) :
    soloOutcome m i c = .valid c (cellWords m (readCell c i)) := by
  have hcell : (readCell c i : Fin N) = cellOf q := by rw [readCell, toNat_snapshotWant hic, hq]
  have hidx : m (.index (readCell c i)) = snapshotWant c i := by
    apply UInt64.toNat_inj.mp
    rw [hcell, hh.index, toNat_snapshotWant hic, hq]
  rw [SeqlockRing.soloOutcome, if_neg (by rw [hcell]; exact hh.seq_ne), if_neg, if_pos hidx]
  rw [Word.and_one_ne_zero, hcell, hh.seq_even]
  decide

/-- The walk of a solo `Snapshot` from its `taken`-th entry on, where the first
`L` cells below the cursor are known to validate. -/
theorem snapshot_walk {h : History N size} {c : UInt64} {L : Nat} (k : Nat)
    (out : Nat → Payload size) (hsound : ∀ j, SoundAt m h.published j) (hcn : c.toNat ≤ h.published.length)
    (hheld : ∀ i < L, i < c.toNat → ∃ staged, soloOutcome m i c = .valid c staged) (d : Nat) :
    ∀ taken buf, taken + d = snapshotLimit N k c → Entries h c out taken buf →
      ∃ a n out', (snapshot k).alone a m (snapshotNext N k c taken buf) = (m, .inr (n, out')) ∧
        min L (snapshotLimit N k c) ≤ n ∧ n ≤ snapshotLimit N k c ∧ Entries h c out n out' := by
  induction d with
  | zero =>
      intro taken buf hd he
      refine ⟨0, taken, buf, ?_, by omega, by omega, he⟩
      rw [Code.alone_zero, snapshotNext, if_neg (by omega)]
  | succ d ih =>
      intro taken buf hd he
      have hlim := snapshotLimit_eq (N := N) k c
      have htc : taken < c.toNat := by omega
      rw [snapshotNext, if_pos (by omega)]
      obtain ⟨a, -, hrun, -⟩ := (snapshot_reads m k taken buf).ends_first (c := c)
      -- either the entry is taken and the walk goes on, or it ends here
      have hstop : ∀ {t}, snapshotOn N k taken buf (soloOutcome m taken c) = t →
          t = .inr (taken, buf) → (∀ staged, soloOutcome m taken c ≠ .valid c staged) →
          ∃ a n out', (snapshot k).alone a m (.inl ⟨taken, buf, .first c⟩) = (m, .inr (n, out')) ∧
            min L (snapshotLimit N k c) ≤ n ∧ n ≤ snapshotLimit N k c ∧ Entries h c out n out' := by
        intro t ht hinr hno
        rw [ht, hinr] at hrun
        have hL : L ≤ taken := by
          by_contra hlt
          obtain ⟨staged, hv⟩ := hheld taken (by omega) htc
          exact hno staged hv
        exact ⟨a, taken, buf, hrun, by omega, by omega, he⟩
      cases ho : soloOutcome m taken c with
      | valid c' staged =>
          obtain ⟨rfl, -⟩ := soloOutcome_valid ho
          have hv := published_of_soloOutcome hsound htc hcn ho
          obtain ⟨a', n, out', hrun', hn⟩ := ih (taken + 1)
            (Function.update buf taken (ofWords staged)) (by omega) (he.take hv)
          refine ⟨a + a', n, out', ?_, hn⟩
          rw [Code.alone_add, hrun, ho]
          exact hrun'
      | zero => exact hstop rfl (by rw [ho]; rfl) (by simp [ho])
      | odd => exact hstop rfl (by rw [ho]; rfl) (by simp [ho])
      | invalid => exact hstop rfl (by rw [ho]; rfl) (by simp [ho])
      | captured c => simp only [soloOutcome] at ho; split_ifs at ho
      | progress pc => simp only [soloOutcome] at ho; split_ifs at ho

/-- **`Snapshot` with nobody else moving**: the newest values in order, at least
as many as the cells known to validate. -/
theorem snapshot_alone {h : History N size} {L : Nat} (hsound : ∀ j, SoundAt m h.published j)
    (hcount : (m .writeCount).toNat = h.published.length)
    (hheld : ∀ i < L, i < h.published.length →
      ∃ staged, soloOutcome m i (m .writeCount) = .valid (m .writeCount) staged)
    (k : Nat) (out : Nat → Payload size) :
    ∃ n out', (snapshot k).Returns m ⟨0, out, .capture⟩ m (n, out') ∧
      min L (min k (min h.published.length N)) ≤ n ∧ n ≤ min k (min h.published.length N) ∧
      ∀ i < n, h.published[h.published.length - 1 - i]? = some (out' i) := by
  obtain ⟨a, n, out', hrun, h1, h2, he⟩ := snapshot_walk k out hsound hcount.le
    (by rw [hcount]; exact hheld) (snapshotLimit N k (m .writeCount)) 0 out (by simp)
    ⟨by simp, fun _ _ => rfl⟩
  rw [snapshotLimit_eq, hcount] at h1 h2
  refine ⟨n, out', ⟨a + 1, ?_⟩, h1, h2, ?_⟩
  · rw [Code.alone_succ, snapshot_exec]
    exact hrun
  · intro i hi
    rw [← hcount]
    exact he.taken i hi

end XmBase.Concurrency.SeqlockRing
