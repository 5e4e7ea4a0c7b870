import XmBase.Lib.Run
import Mathlib.Algebra.Order.Ring.Nat
/-!
# XmBase.Concurrency.EventCount

Parking (`include/xmbase/concurrency/event_count.hpp`): the futex-backed
`EventCount` and the portable `CondvarEventCount`, each with any number of threads
that wait for a predicate and of threads that make it true and call `NotifyAll`.

Between its check of the predicate and the moment it blocks a waiter is exposed.
What covers it is a notifier that made the predicate true in the meantime and has
not moved the epoch yet, or the epoch that has moved (`EventCount`), or a notifier
that is still waiting for the mutex the waiter holds (`CondvarEventCount`). So
**a blocked waiter whose predicate is true always has a notifier that is about to
wake it** (`lost_wakeup_free`).

The predicate is one flag, read in one step; once true it stays true. What the
kernel and the condition variable do is as documented: the comparison with the
futex word and the blocking are one step, so are the release of the mutex and the
blocking, and a blocked thread may come back at any time without being woken.
-/

namespace XmBase.Concurrency

/-- A thread other than `j` stays where it is. -/
theorem exists_update_of_not {α β : Type} [DecidableEq α] (f : α → β) (P : β → Prop) {j : α}
    (h : ∃ k, P (f k)) (hj : ¬ P (f j)) (b : β) : ∃ k, P (Function.update f j b k) := by
  obtain ⟨k, hk⟩ := h
  have hne : k ≠ j := fun h => hj (h ▸ hk)
  exact ⟨k, by rw [Function.update_of_ne hne]; exact hk⟩

/-! ### The futex eventcount

`WaitUntil` of `EventCount`: a waiter remembers the epoch, checks the predicate and asks the
kernel to block it while the epoch is still the remembered one. The invariant says what
makes this safe. A waiter past its check either remembers an epoch that has moved, so that
the kernel sends it back, or the predicate is false, or a notifier still has its `fetch_add`
to do and will wake it. The epoch is a 32-bit word, so the first case needs fewer than
`2 ^ 32` moves between the load and the comparison (`FewMoves`). -/

namespace EventCount

/-- A thread in `WaitUntil`, by its next access. `gen` is the epoch it remembers, and
`stamp` is a history variable: how often the epoch had been moved when `gen` was loaded.
The code never sees it; it is what tells an epoch from one that has come round again. -/
inductive Waiter
  | idle
  /-- `word_->load()`. -/
  | load
  /-- `predicate()`. -/
  | check (gen : UInt32) (stamp : Nat)
  /-- `deadline_at - Now()`. -/
  | deadline (gen : UInt32) (stamp : Nat)
  /-- `WaitOn(gen, remaining)`, before the kernel has looked at the word. -/
  | futexWait (gen : UInt32) (stamp : Nat)
  | blocked
  /-- `return predicate()`, past the deadline. -/
  | final
  | returned (result : Bool)
  deriving DecidableEq, Repr

/-- A thread that makes the predicate true and calls `NotifyAll`. -/
inductive Notifier
  | idle
  | makeTrue
  /-- `word_->fetch_add(1)`. -/
  | fetchAdd
  /-- `Wake()`: `FUTEX_WAKE` of `INT32_MAX` threads. -/
  | wake
  | done
  deriving DecidableEq, Repr

/-- `word` is the epoch and `ready` the predicate; `moves` counts how often the epoch was
moved and is the clock of the stamps. -/
structure World (ι κ : Type) where
  word : UInt32
  ready : Bool
  waiters : ι → Waiter
  notifiers : κ → Notifier
  moves : Nat

/-- The word may have any value, as one in a shared mapping does. -/
def World.init (ι κ : Type) (word : UInt32) (ready : Bool) : World ι κ :=
  ⟨word, ready, fun _ => .idle, fun _ => .idle, 0⟩

/-- Who moves. Every access is a step of its own, and a run is any sequence of them. -/
inductive Label (ι κ : Type)
  | callWait (i : ι)
  | callNotify (j : κ)
  /-- The next step of a waiter that is not blocked; `late` is what the clock says at
  a `deadline`. -/
  | waiter (i : ι) (late : Bool)
  /-- `FUTEX_WAIT` returns by a timeout, a signal or for no reason. -/
  | unblock (i : ι)
  | notifier (j : κ)
  deriving DecidableEq, Repr

section

variable {ι κ : Type}

/-- `FUTEX_WAKE` unblocks every blocked waiter. -/
def unblockAll (waiters : ι → Waiter) : ι → Waiter := fun i =>
  match waiters i with
  | .blocked => .load
  | pc => pc

/-- The next step of a waiter, with the word, the predicate and the clock as they are at
this moment. -/
def Waiter.next (word : UInt32) (ready : Bool) (moves : Nat) (late : Bool) :
    Waiter → Option Waiter
  | .load => some (.check word moves)
  | .check gen stamp => some (if ready then .returned true else .deadline gen stamp)
  | .deadline gen stamp => some (if late then .final else .futexWait gen stamp)
  | .futexWait gen _ => some (if word = gen then .blocked else .load)
  | .final => some (.returned ready)
  | .idle | .blocked | .returned _ => none

variable [DecidableEq ι] [DecidableEq κ]

def World.step (w : World ι κ) : Label ι κ → Option (World ι κ)
  | .callWait i =>
      match w.waiters i with
      | .idle | .returned _ => some { w with waiters := Function.update w.waiters i .load }
      | _ => none
  | .callNotify j =>
      match w.notifiers j with
      | .idle | .done => some { w with notifiers := Function.update w.notifiers j .makeTrue }
      | _ => none
  | .waiter i late => do
      let pc ← (w.waiters i).next w.word w.ready w.moves late
      some { w with waiters := Function.update w.waiters i pc }
  | .unblock i =>
      match w.waiters i with
      | .blocked => some { w with waiters := Function.update w.waiters i .load }
      | _ => none
  | .notifier j =>
      match w.notifiers j with
      | .makeTrue =>
          some { w with ready := true, notifiers := Function.update w.notifiers j .fetchAdd }
      | .fetchAdd =>
          some { w with
            word := w.word + 1
            moves := w.moves + 1
            notifiers := Function.update w.notifiers j .wake }
      | .wake =>
          some { w with
            waiters := unblockAll w.waiters
            notifiers := Function.update w.notifiers j .done }
      | .idle | .done => none

/-- Fewer than `2 ^ 32` calls of `NotifyAll` have moved the epoch since a waiter that
goes to sleep loaded it. -/
def FewMoves (w : World ι κ) : Label ι κ → Prop
  | .waiter i _ => ∀ gen stamp, w.waiters i = .futexWait gen stamp → w.moves - stamp < 2 ^ 32
  | _ => True

instance (w : World ι κ) : (l : Label ι κ) → Decidable (FewMoves w l)
  | .waiter i _ =>
      match h : w.waiters i with
      | .futexWait _ stamp => decidable_of_iff (w.moves - stamp < 2 ^ 32) (by simp [FewMoves, h])
      | .idle | .load | .check .. | .deadline .. | .blocked | .final | .returned _ =>
          .isTrue (by simp [FewMoves, h])
  | .callWait _ | .callNotify _ | .unblock _ | .notifier _ => .isTrue trivial

end

/-! What covers a waiter. Each notion speaks of one stretch of `NotifyAll`: before the epoch
moves, and until everybody who is blocked has been woken. -/

section

variable {ι κ : Type} {word₀ : UInt32} {w w' : World ι κ}

/-- Some notifier has made the predicate true and not moved the epoch since. -/
def World.Moving (w : World ι κ) : Prop := ∃ j, w.notifiers j = .fetchAdd

/-- Some notifier is inside `NotifyAll`. -/
def World.Notifying (w : World ι κ) : Prop :=
  ∃ j, w.notifiers j = .fetchAdd ∨ w.notifiers j = .wake

/-- The epoch has moved since the stamp, or will before the notifier is done, if the
predicate is true. -/
def World.Outdated (w : World ι κ) (stamp : Nat) : Prop :=
  w.ready = true → w.Moving ∨ stamp < w.moves

/-- `gen` is the epoch of the stamp, counted from the word's first value. -/
def Remembers (word₀ : UInt32) (w : World ι κ) (gen : UInt32) (stamp : Nat) : Prop :=
  gen = word₀ + .ofNat stamp ∧ stamp ≤ w.moves

/-- A waiter past its check is covered. Behind the check only the predicate's being true
is dangerous, and `Outdated` is what meets it; a blocked waiter is past the comparison, so
there a notifier that has already moved the epoch must still have its `wake` to do. -/
def Covered (word₀ : UInt32) (w : World ι κ) : Waiter → Prop
  | .check gen stamp => Remembers word₀ w gen stamp
  | .deadline gen stamp | .futexWait gen stamp =>
      Remembers word₀ w gen stamp ∧ w.Outdated stamp
  | .blocked => w.ready = true → w.Notifying
  | .idle | .load | .final | .returned _ => True

/-- The word counts the moves, and every waiter is covered. -/
structure Inv (word₀ : UInt32) (w : World ι κ) : Prop where
  word : w.word = word₀ + .ofNat w.moves
  covered : ∀ i, Covered word₀ w (w.waiters i)

theorem Inv.init (word₀ : UInt32) (ready : Bool) : Inv word₀ (World.init ι κ word₀ ready) where
  word := (UInt32.add_zero _).symm
  covered _ := trivial

/-- Cover does not depend on the waiters. -/
theorem covered_waiters {waiters : ι → Waiter} {pc : Waiter} :
    Covered word₀ { w with waiters := waiters } pc ↔ Covered word₀ w pc := by
  cases pc <;> rfl

/-- A notifier moves: what covers a waiter goes on covering it. -/
theorem Covered.mono {pc : Waiter} (h : Covered word₀ w pc) (hmoves : w.moves ≤ w'.moves)
    (hout : ∀ stamp ≤ w.moves, w.Outdated stamp → w'.Outdated stamp)
    (hblocked : pc = .blocked → w'.ready = true → w'.Notifying) : Covered word₀ w' pc := by
  have hrem : ∀ {gen stamp}, Remembers word₀ w gen stamp → Remembers word₀ w' gen stamp :=
    fun h => ⟨h.1, h.2.trans hmoves⟩
  cases pc with
  | check gen stamp => exact hrem h
  | deadline gen stamp => exact ⟨hrem h.1, hout stamp h.1.2 h.2⟩
  | futexWait gen stamp => exact ⟨hrem h.1, hout stamp h.1.2 h.2⟩
  | blocked => exact hblocked rfl
  | idle => trivial
  | load => trivial
  | final => trivial
  | returned result => trivial

/-- Where the comparison in the kernel succeeds, the epoch has not moved at all: with fewer
than `2 ^ 32` moves in between no other epoch has the same word. -/
theorem Remembers.eq_moves {gen : UInt32} {stamp : Nat} (h : Remembers word₀ w gen stamp)
    (hword : w.word = word₀ + .ofNat w.moves) (heq : w.word = gen)
    (hfew : w.moves - stamp < 2 ^ 32) : stamp = w.moves := by
  have hofNat : UInt32.ofNat w.moves = .ofNat stamp := by
    rw [h.1, hword] at heq
    exact (UInt32.add_right_inj _).mp heq
  have hmod := congrArg UInt32.toNat hofNat
  rw [UInt32.toNat_ofNat', UInt32.toNat_ofNat'] at hmod
  have hle := h.2
  omega

/-- One step of a waiter. -/
theorem Inv.next {pc pc' : Waiter} {late : Bool} (hw : Inv word₀ w) (hpc : Covered word₀ w pc)
    (hfew : ∀ gen stamp, pc = .futexWait gen stamp → w.moves - stamp < 2 ^ 32)
    (h : pc.next w.word w.ready w.moves late = some pc') : Covered word₀ w pc' := by
  cases pc with
  | load =>
      obtain rfl := Option.some.inj h
      exact ⟨hw.word, Nat.le_refl _⟩
  | check gen stamp =>
      obtain rfl := Option.some.inj h
      cases hready : w.ready with
      | true => trivial
      | false =>
          -- the cover is owed only where the condition holds, and the check saw that it does not
          refine ⟨hpc, fun hready' => ?_⟩
          rw [hready] at hready'
          cases hready'
  | deadline gen stamp =>
      obtain rfl := Option.some.inj h
      cases late with
      | true => trivial
      | false => exact hpc
  | futexWait gen stamp =>
      obtain rfl := Option.some.inj h
      by_cases heq : w.word = gen
      · rw [if_pos heq]
        intro hready
        -- the stamp is current, so the cover is a notifier before its `fetch_add`
        have hstamp := hpc.1.eq_moves hw.word heq (hfew gen stamp rfl)
        rcases hpc.2 hready with ⟨j, hj⟩ | hlt
        · exact ⟨j, .inl hj⟩
        · exact absurd hstamp (Nat.ne_of_lt hlt)
      · rw [if_neg heq]
        trivial
  | final =>
      obtain rfl := Option.some.inj h
      trivial
  | idle => cases h
  | blocked => cases h
  | returned result => cases h

variable [DecidableEq ι] [DecidableEq κ]

omit [DecidableEq κ] in
/-- A waiter's new program counter, with everything else as it was. -/
theorem Inv.update (hw : Inv word₀ w) (i : ι) {pc : Waiter} (hpc : Covered word₀ w pc) :
    Inv word₀ { w with waiters := Function.update w.waiters i pc } where
  word := hw.word
  covered k := by
    rw [covered_waiters]
    show Covered word₀ w (Function.update w.waiters i pc k)
    by_cases hk : k = i
    · subst hk
      rw [Function.update_self]
      exact hpc
    · rw [Function.update_of_ne hk]
      exact hw.covered k

omit [DecidableEq ι] in
theorem World.Moving.update {j : κ} (hmoving : w.Moving) (hj : w.notifiers j ≠ .fetchAdd)
    (pc : Notifier) : ∃ k, Function.update w.notifiers j pc k = .fetchAdd :=
  exists_update_of_not w.notifiers (· = .fetchAdd) hmoving hj pc

omit [DecidableEq ι] in
theorem World.Notifying.update {j : κ} (hnot : w.Notifying) (hj : w.notifiers j ≠ .fetchAdd)
    (hj' : w.notifiers j ≠ .wake) (pc : Notifier) :
    ∃ k, Function.update w.notifiers j pc k = .fetchAdd ∨
      Function.update w.notifiers j pc k = .wake :=
  exists_update_of_not w.notifiers (fun pc => pc = .fetchAdd ∨ pc = .wake) hnot
    (fun h => h.elim hj hj') pc

/-- The step lemma. -/
theorem Inv.step {l : Label ι κ} (hfew : FewMoves w l) (hw : Inv word₀ w)
    (h : w.step l = some w') : Inv word₀ w' := by
  cases l with
  | callWait i =>
      simp only [World.step] at h
      split at h
      all_goals first
        | cases h; exact hw.update i trivial
        | cases h
  | waiter i late =>
      simp only [World.step, Option.bind_eq_bind, Option.bind_eq_some_iff] at h
      obtain ⟨pc, hpc, hw'⟩ := h
      obtain rfl := Option.some.inj hw'
      exact hw.update i (hw.next (hw.covered i) (fun gen stamp => hfew gen stamp) hpc)
  | unblock i =>
      simp only [World.step] at h
      split at h
      · cases h
        exact hw.update i trivial
      · cases h
  | callNotify j =>
      have hj : w.notifiers j ≠ .fetchAdd ∧ w.notifiers j ≠ .wake := by
        constructor <;> intro hj <;> simp only [World.step, hj] at h <;> cases h
      obtain rfl : w' = { w with notifiers := Function.update w.notifiers j .makeTrue } := by
        simp only [World.step] at h
        split at h
        all_goals first
          | exact (Option.some.inj h).symm
          | cases h
      refine ⟨hw.word, fun i => (hw.covered i).mono (Nat.le_refl _) ?_ ?_⟩
      · intro stamp _ hout hready
        exact (hout hready).imp_left fun hmoving => hmoving.update hj.1 .makeTrue
      · intro hblocked hready
        have hcovered := hw.covered i
        rw [hblocked] at hcovered
        exact (hcovered hready).update hj.1 hj.2 .makeTrue
  | notifier j =>
      simp only [World.step] at h
      cases hj : w.notifiers j with
      | idle => simp only [hj] at h; cases h
      | done => simp only [hj] at h; cases h
      | makeTrue =>
          simp only [hj] at h
          obtain rfl := Option.some.inj h
          have hat : Function.update w.notifiers j .fetchAdd j = .fetchAdd := Function.update_self ..
          -- this notifier is before its `fetch_add`, and covers every waiter
          refine ⟨hw.word, fun i => (hw.covered i).mono (Nat.le_refl _) ?_ ?_⟩
          · exact fun _ _ _ _ => .inl ⟨j, hat⟩
          · exact fun _ _ => ⟨j, .inl hat⟩
      | fetchAdd =>
          simp only [hj] at h
          obtain rfl := Option.some.inj h
          have hat : Function.update w.notifiers j .wake j = .wake := Function.update_self ..
          -- the word has moved past every stamp, and the wake is still to come
          refine ⟨?_, fun i => (hw.covered i).mono (Nat.le_succ _) ?_ ?_⟩
          · show w.word + 1 = word₀ + .ofNat (w.moves + 1)
            rw [hw.word, UInt32.ofNat_add, ← UInt32.add_assoc]
            rfl
          · exact fun stamp hle _ _ => .inr (Nat.lt_succ_of_le hle)
          · exact fun _ _ => ⟨j, .inr hat⟩
      | wake =>
          simp only [hj] at h
          obtain rfl := Option.some.inj h
          refine ⟨hw.word, fun i => ?_⟩
          -- nobody is blocked behind the wake, so no waiter needs this notifier any longer
          have hcovered : Covered word₀ w (unblockAll w.waiters i) ∧
              unblockAll w.waiters i ≠ .blocked := by
            have hi := hw.covered i
            unfold unblockAll
            cases hpc : w.waiters i <;> rw [hpc] at hi <;> exact ⟨by first | exact hi | trivial, nofun⟩
          refine hcovered.1.mono (Nat.le_refl _) ?_ (fun hblocked => absurd hblocked hcovered.2)
          intro stamp _ hout hready
          exact (hout hready).imp_left fun hmoving =>
            hmoving.update (by rw [hj]; exact nofun) .done

end

/-- The run lemma. -/
theorem run_inv {ι κ : Type} [DecidableEq ι] [DecidableEq κ] {word₀ : UInt32} {ready₀ : Bool}
    {w : World ι κ} {ls : List (Label ι κ)}
    (h : Run.exec World.step (World.init ι κ word₀ ready₀) ls = some w)
    (hfew : Run.Steps World.step FewMoves (World.init ι κ word₀ ready₀) ls) : Inv word₀ w :=
  Run.exec_invariant_of_steps (fun hfew hw h => hw.step hfew h) hfew (Inv.init word₀ ready₀) h

end EventCount

/-! ### The condition variable

`CondvarEventCount`: here the check and the decision to block are under a mutex that
`NotifyAll` takes too. So a notifier that made the predicate true behind a waiter's check
cannot get to its `notify_all` before the waiter has released the mutex, which is the step
that blocks it. The invariant is mutual exclusion and this cover. -/

namespace CondvarEventCount

/-- A thread in `WaitFor`: `cv_.wait_for(lock, max_park, predicate)` under the lock. -/
inductive Waiter
  | idle
  /-- The constructor of `unique_lock`. -/
  | lock
  /-- `predicate()`, with the mutex held. -/
  | check
  /-- About to release the mutex and block, which is one step. -/
  | wait
  | blocked
  /-- Back from the wait, and taking the mutex again. -/
  | relock (timedOut : Bool)
  /-- `predicate()` after a timeout, with the mutex held. -/
  | final
  /-- The destructor of `unique_lock`. -/
  | unlock (result : Bool)
  | returned (result : Bool)
  deriving DecidableEq, Repr

/-- A thread that makes the predicate true and calls `NotifyAll`. -/
inductive Notifier
  | idle
  | makeTrue
  /-- The constructor of `lock_guard`. -/
  | lock
  /-- Its destructor. -/
  | unlock
  /-- `cv_.notify_all()`. -/
  | notify
  | done
  deriving DecidableEq, Repr

/-- Who holds the mutex. -/
inductive Owner (ι κ : Type)
  | waiter (i : ι)
  | notifier (j : κ)
  deriving DecidableEq, Repr

structure World (ι κ : Type) where
  mutex : Option (Owner ι κ)
  ready : Bool
  waiters : ι → Waiter
  notifiers : κ → Notifier

def World.init (ι κ : Type) (ready : Bool) : World ι κ :=
  ⟨none, ready, fun _ => .idle, fun _ => .idle⟩

inductive Label (ι κ : Type)
  | callWait (i : ι)
  | callNotify (j : κ)
  /-- The next step of a waiter that is not blocked. -/
  | waiter (i : ι)
  /-- The wait ends by a timeout or for no reason. -/
  | unblock (i : ι) (timedOut : Bool)
  | notifier (j : κ)
  deriving DecidableEq, Repr

section

variable {ι κ : Type}

/-- `notify_all` unblocks every blocked waiter. -/
def unblockAll (waiters : ι → Waiter) : ι → Waiter := fun i =>
  match waiters i with
  | .blocked => .relock false
  | pc => pc

/-- The next step of waiter `i`: the mutex and the waiter after it. -/
def Waiter.next (i : ι) (mutex : Option (Owner ι κ)) (ready : Bool) :
    Waiter → Option (Option (Owner ι κ) × Waiter)
  | .lock => if mutex.isNone then some (some (.waiter i), .check) else none
  | .check => some (mutex, if ready then .unlock true else .wait)
  | .wait => some (none, .blocked)
  | .relock timedOut =>
      if mutex.isNone then some (some (.waiter i), if timedOut then .final else .check) else none
  | .final => some (mutex, .unlock ready)
  | .unlock result => some (none, .returned result)
  | .idle | .blocked | .returned _ => none

variable [DecidableEq ι] [DecidableEq κ]

def World.step (w : World ι κ) : Label ι κ → Option (World ι κ)
  | .callWait i =>
      match w.waiters i with
      | .idle | .returned _ => some { w with waiters := Function.update w.waiters i .lock }
      | _ => none
  | .callNotify j =>
      match w.notifiers j with
      | .idle | .done => some { w with notifiers := Function.update w.notifiers j .makeTrue }
      | _ => none
  | .waiter i => do
      let (mutex, pc) ← (w.waiters i).next i w.mutex w.ready
      some { w with mutex := mutex, waiters := Function.update w.waiters i pc }
  | .unblock i timedOut =>
      match w.waiters i with
      | .blocked => some { w with waiters := Function.update w.waiters i (.relock timedOut) }
      | _ => none
  | .notifier j =>
      match w.notifiers j with
      | .makeTrue =>
          some { w with ready := true, notifiers := Function.update w.notifiers j .lock }
      | .lock =>
          if w.mutex.isNone then
            some { w with
              mutex := some (.notifier j)
              notifiers := Function.update w.notifiers j .unlock }
          else none
      | .unlock =>
          some { w with mutex := none, notifiers := Function.update w.notifiers j .notify }
      | .notify =>
          some { w with
            waiters := unblockAll w.waiters
            notifiers := Function.update w.notifiers j .done }
      | .idle | .done => none

end

/-! What covers a waiter. -/

/-- The waiter holds the mutex: it has taken it, and its step that gives it back is to come. -/
def Waiter.holds : Waiter → Bool
  | .check | .wait | .final | .unlock _ => true
  | .idle | .lock | .blocked | .relock _ | .returned _ => false

section

variable {ι κ : Type} {w w' : World ι κ}

/-- Some notifier has made the predicate true and still has to take the mutex. -/
def World.Locking (w : World ι κ) : Prop := ∃ j, w.notifiers j = .lock

/-- Some notifier is inside `NotifyAll`. -/
def World.Notifying (w : World ι κ) : Prop :=
  ∃ j, w.notifiers j = .lock ∨ w.notifiers j = .unlock ∨ w.notifiers j = .notify

/-- The mutex excludes, and a waiter past its check is covered: while it still has the
mutex by a notifier that waits for it, and once it is blocked by one that is inside
`NotifyAll`. -/
structure Inv (w : World ι κ) : Prop where
  waiter : ∀ i, (w.waiters i).holds = true → w.mutex = some (.waiter i)
  notifier : ∀ j, w.notifiers j = .unlock → w.mutex = some (.notifier j)
  waiting : ∀ i, w.waiters i = .wait → w.ready = true → w.Locking
  blocked : ∀ i, w.waiters i = .blocked → w.ready = true → w.Notifying

theorem Inv.init (ready : Bool) : Inv (World.init ι κ ready) where
  waiter := nofun
  notifier := nofun
  waiting := nofun
  blocked := nofun

/-- A waiter that holds the mutex holds it alone. -/
theorem Inv.alone (hw : Inv w) {i : ι} (hi : (w.waiters i).holds = true) :
    (∀ k, (w.waiters k).holds = true → k = i) ∧ ∀ j, w.notifiers j ≠ .unlock := by
  have hmutex := hw.waiter i hi
  constructor
  · intro k hk
    have h := (hw.waiter k hk).symm.trans hmutex
    injection h with h
    injection h
  · intro j hj
    cases (hw.notifier j hj).symm.trans hmutex

/-- So does a notifier. -/
theorem Inv.aloneNotifier (hw : Inv w) {j : κ} (hj : w.notifiers j = .unlock) :
    (∀ i, (w.waiters i).holds = false) ∧ ∀ k, w.notifiers k = .unlock → k = j := by
  have hmutex := hw.notifier j hj
  constructor
  · intro i
    by_contra hi
    cases (hw.waiter i (Bool.eq_true_of_not_eq_false hi)).symm.trans hmutex
  · intro k hk
    have h := (hw.notifier k hk).symm.trans hmutex
    injection h with h
    injection h

/-- Nobody is between taking the mutex and giving it back. It is what a step that takes the
mutex may assume. -/
structure World.Free (w : World ι κ) : Prop where
  waiter : ∀ i, (w.waiters i).holds = false
  notifier : ∀ j, w.notifiers j ≠ .unlock

/-- A free mutex is held by nobody. -/
theorem Inv.free (hw : Inv w) (h : w.mutex = none) : w.Free := by
  constructor
  · intro i
    by_contra hi
    have hmutex := hw.waiter i (Bool.eq_true_of_not_eq_false hi)
    rw [h] at hmutex
    cases hmutex
  · intro j hj
    have hmutex := hw.notifier j hj
    rw [h] at hmutex
    cases hmutex

theorem World.Free.exclusive (h : w.Free) (i : ι) :
    (∀ k, (w.waiters k).holds = true → k = i) ∧ ∀ j, w.notifiers j ≠ .unlock := by
  refine ⟨fun k hk => ?_, h.notifier⟩
  rw [h.waiter k] at hk
  cases hk

variable [DecidableEq ι] [DecidableEq κ]

omit [DecidableEq κ] in
/-- A waiter's step, by what it does to the mutex. -/
theorem Inv.update (hw : Inv w) (i : ι) {pc : Waiter} {mutex : Option (Owner ι κ)}
    (hown : pc.holds = true → mutex = some (.waiter i))
    (hothers : mutex = w.mutex ∨
      ((∀ k, (w.waiters k).holds = true → k = i) ∧ ∀ j, w.notifiers j ≠ .unlock))
    (hwait : pc = .wait → w.ready = true → w.Locking)
    (hblocked : pc = .blocked → w.ready = true → w.Notifying) :
    Inv { w with mutex := mutex, waiters := Function.update w.waiters i pc } := by
  constructor
  · intro k hk
    simp only at hk ⊢
    by_cases hki : k = i
    · subst hki
      rw [Function.update_self] at hk
      exact hown hk
    · rw [Function.update_of_ne hki] at hk
      rcases hothers with hsame | ⟨hexcl, _⟩
      · rw [hsame]
        exact hw.waiter k hk
      · exact absurd (hexcl k hk) hki
  · intro j hj
    rcases hothers with hsame | ⟨_, hexcl⟩
    · exact hsame.trans (hw.notifier j hj)
    · exact absurd hj (hexcl j)
  · intro k hk
    simp only at hk
    by_cases hki : k = i
    · subst hki
      rw [Function.update_self] at hk
      exact hwait hk
    · rw [Function.update_of_ne hki] at hk
      exact hw.waiting k hk
  · intro k hk
    simp only at hk
    by_cases hki : k = i
    · subst hki
      rw [Function.update_self] at hk
      exact hblocked hk
    · rw [Function.update_of_ne hki] at hk
      exact hw.blocked k hk

omit [DecidableEq κ] in
/-- One step of a waiter. -/
theorem Inv.next (hw : Inv w) {i : ι} {pc : Waiter} {mutex : Option (Owner ι κ)}
    (h : (w.waiters i).next i w.mutex w.ready = some (mutex, pc)) :
    Inv { w with mutex := mutex, waiters := Function.update w.waiters i pc } := by
  cases hi : w.waiters i with
  | lock =>
      rw [hi, Waiter.next] at h
      split at h
      · next hnone =>
        obtain ⟨rfl, rfl⟩ := Prod.mk.inj (Option.some.inj h)
        have hexcl := (hw.free (Option.isNone_iff_eq_none.mp hnone)).exclusive i
        exact hw.update i (fun _ => rfl) (.inr hexcl) nofun nofun
      · cases h
  | check =>
      obtain ⟨rfl, rfl⟩ := Prod.mk.inj (Option.some.inj (hi ▸ h))
      have hmutex := hw.waiter i (by rw [hi]; rfl)
      refine hw.update i (fun _ => hmutex) (.inl rfl) ?_ ?_
      · intro hpc hready
        rw [hready] at hpc
        cases hpc
      · intro hpc
        split at hpc <;> cases hpc
  | wait =>
      obtain ⟨rfl, rfl⟩ := Prod.mk.inj (Option.some.inj (hi ▸ h))
      refine hw.update i nofun (.inr (hw.alone (by rw [hi]; rfl))) nofun ?_
      -- the mutex was held since the check, so the notifier is still before it
      intro _ hready
      obtain ⟨j, hj⟩ := hw.waiting i hi hready
      exact ⟨j, .inl hj⟩
  | relock timedOut =>
      rw [hi, Waiter.next] at h
      split at h
      · next hnone =>
        obtain ⟨rfl, rfl⟩ := Prod.mk.inj (Option.some.inj h)
        have hexcl := (hw.free (Option.isNone_iff_eq_none.mp hnone)).exclusive i
        refine hw.update i (fun _ => rfl) (.inr hexcl) ?_ ?_
        · intro hpc
          split at hpc <;> cases hpc
        · intro hpc
          split at hpc <;> cases hpc
      · cases h
  | final =>
      obtain ⟨rfl, rfl⟩ := Prod.mk.inj (Option.some.inj (hi ▸ h))
      have hmutex := hw.waiter i (by rw [hi]; rfl)
      exact hw.update i (fun _ => hmutex) (.inl rfl) nofun nofun
  | unlock result =>
      obtain ⟨rfl, rfl⟩ := Prod.mk.inj (Option.some.inj (hi ▸ h))
      exact hw.update i nofun (.inr (hw.alone (by rw [hi]; rfl))) nofun nofun
  | idle => rw [hi] at h; cases h
  | blocked => rw [hi] at h; cases h
  | returned result => rw [hi] at h; cases h

omit [DecidableEq ι] in
theorem World.Locking.update {j : κ} (h : w.Locking) (hj : w.notifiers j ≠ .lock) (pc : Notifier) :
    ∃ k, Function.update w.notifiers j pc k = .lock :=
  exists_update_of_not w.notifiers (· = .lock) h hj pc

omit [DecidableEq ι] in
theorem World.Notifying.update {j : κ} (h : w.Notifying)
    (hj : w.notifiers j = .idle ∨ w.notifiers j = .done) (pc : Notifier) :
    ∃ k, Function.update w.notifiers j pc k = .lock ∨ Function.update w.notifiers j pc k = .unlock ∨
      Function.update w.notifiers j pc k = .notify := by
  refine exists_update_of_not w.notifiers (fun pc => pc = .lock ∨ pc = .unlock ∨ pc = .notify) h
    ?_ pc
  rcases hj with hj | hj <;> rw [hj] <;> simp

omit [DecidableEq ι] in
/-- A notifier's step that leaves the waiters alone, by what it does to the mutex. -/
theorem Inv.updateNotifier (hw : Inv w) (j : κ) {pc : Notifier} {mutex : Option (Owner ι κ)}
    {ready : Bool} (hown : pc = .unlock → mutex = some (.notifier j))
    (hothers : mutex = w.mutex ∨
      ((∀ i, (w.waiters i).holds = false) ∧ ∀ k, w.notifiers k = .unlock → k = j))
    (hwait : ∀ i, w.waiters i = .wait → ready = true →
      ∃ k, Function.update w.notifiers j pc k = .lock)
    (hblocked : ∀ i, w.waiters i = .blocked → ready = true →
      ∃ k, Function.update w.notifiers j pc k = .lock ∨
        Function.update w.notifiers j pc k = .unlock ∨
        Function.update w.notifiers j pc k = .notify) :
    Inv { w with
      mutex := mutex
      ready := ready
      notifiers := Function.update w.notifiers j pc } := by
  constructor
  · intro i hi
    rcases hothers with hsame | ⟨hfree, _⟩
    · exact hsame.trans (hw.waiter i hi)
    · rw [hfree i] at hi
      cases hi
  · intro k hk
    simp only at hk ⊢
    by_cases hkj : k = j
    · subst hkj
      rw [Function.update_self] at hk
      exact hown hk
    · rw [Function.update_of_ne hkj] at hk
      rcases hothers with hsame | ⟨_, hexcl⟩
      · exact hsame.trans (hw.notifier k hk)
      · exact absurd (hexcl k hk) hkj
  · exact hwait
  · exact hblocked

omit [DecidableEq ι] in
/-- `notify_all` leaves nobody blocked. -/
theorem Inv.notify (hw : Inv w) {j : κ} (hj : w.notifiers j = .notify) :
    Inv { w with
      waiters := unblockAll w.waiters
      notifiers := Function.update w.notifiers j .done } := by
  have hpc : ∀ i, unblockAll w.waiters i = w.waiters i ∨ unblockAll w.waiters i = .relock false := by
    intro i
    unfold unblockAll
    split
    · exact .inr rfl
    · exact .inl rfl
  constructor
  · intro i hi
    simp only at hi
    rcases hpc i with hsame | hrelock
    · rw [hsame] at hi
      exact hw.waiter i hi
    · rw [hrelock] at hi
      cases hi
  · intro k hk
    simp only at hk
    by_cases hkj : k = j
    · subst hkj
      rw [Function.update_self] at hk
      cases hk
    · rw [Function.update_of_ne hkj] at hk
      exact hw.notifier k hk
  · intro i hi hready
    simp only at hi
    rcases hpc i with hsame | hrelock
    · rw [hsame] at hi
      exact (hw.waiting i hi hready).update (by rw [hj]; exact nofun) .done
    · rw [hrelock] at hi
      cases hi
  · intro i hi
    simp only [unblockAll] at hi
    split at hi
    · cases hi
    · contradiction

/-- The step lemma. -/
theorem Inv.step {l : Label ι κ} (hw : Inv w) (h : w.step l = some w') : Inv w' := by
  cases l with
  | callWait i =>
      simp only [World.step] at h
      split at h
      all_goals first
        | cases h; exact hw.update i nofun (.inl rfl) nofun nofun
        | cases h
  | waiter i =>
      simp only [World.step, Option.bind_eq_bind, Option.bind_eq_some_iff] at h
      obtain ⟨⟨mutex, pc⟩, hpc, hw'⟩ := h
      obtain rfl := Option.some.inj hw'
      exact hw.next hpc
  | unblock i timedOut =>
      simp only [World.step] at h
      split at h
      · cases h
        exact hw.update i nofun (.inl rfl) nofun nofun
      · cases h
  | callNotify j =>
      have hj : w.notifiers j = .idle ∨ w.notifiers j = .done := by
        cases hj : w.notifiers j with
        | idle => exact .inl rfl
        | done => exact .inr rfl
        | makeTrue => simp only [World.step, hj] at h; cases h
        | lock => simp only [World.step, hj] at h; cases h
        | unlock => simp only [World.step, hj] at h; cases h
        | notify => simp only [World.step, hj] at h; cases h
      obtain rfl : w' = { w with notifiers := Function.update w.notifiers j .makeTrue } := by
        rcases hj with hj | hj <;> simp only [World.step, hj] at h <;> exact (Option.some.inj h).symm
      refine hw.updateNotifier j nofun (.inl rfl) ?_ ?_
      · intro i hi hready
        refine (hw.waiting i hi hready).update ?_ .makeTrue
        rcases hj with hj | hj <;> rw [hj] <;> exact nofun
      · intro i hi hready
        exact (hw.blocked i hi hready).update hj .makeTrue
  | notifier j =>
      simp only [World.step] at h
      cases hj : w.notifiers j with
      | idle => simp only [hj] at h; cases h
      | done => simp only [hj] at h; cases h
      | makeTrue =>
          simp only [hj] at h
          obtain rfl := Option.some.inj h
          have hat : Function.update w.notifiers j .lock j = .lock := Function.update_self ..
          -- this notifier has yet to take the mutex, and covers every waiter
          exact hw.updateNotifier j nofun (.inl rfl) (fun _ _ _ => ⟨j, hat⟩)
            (fun _ _ _ => ⟨j, .inl hat⟩)
      | lock =>
          simp only [hj] at h
          split at h
          · next hnone =>
            obtain rfl := Option.some.inj h
            have hfree := hw.free (Option.isNone_iff_eq_none.mp hnone)
            have hat : Function.update w.notifiers j .unlock j = .unlock := Function.update_self ..
            refine hw.updateNotifier j (fun _ => rfl)
              (.inr ⟨hfree.waiter, fun k hk => absurd hk (hfree.notifier k)⟩) ?_
              (fun _ _ _ => ⟨j, .inr (.inl hat)⟩)
            -- a waiter about to block would hold the mutex
            intro i hi
            have hholds := hfree.waiter i
            rw [hi] at hholds
            cases hholds
          · cases h
      | unlock =>
          simp only [hj] at h
          obtain rfl := Option.some.inj h
          have hat : Function.update w.notifiers j .notify j = .notify := Function.update_self ..
          refine hw.updateNotifier j nofun (.inr (hw.aloneNotifier hj)) ?_
            (fun _ _ _ => ⟨j, .inr (.inr hat)⟩)
          intro i hi hready
          exact (hw.waiting i hi hready).update (by rw [hj]; exact nofun) .notify
      | notify =>
          simp only [hj] at h
          obtain rfl := Option.some.inj h
          exact hw.notify hj

end

/-- The run lemma. -/
theorem run_inv {ι κ : Type} [DecidableEq ι] [DecidableEq κ] {ready₀ : Bool} {w : World ι κ}
    {ls : List (Label ι κ)} (h : Run.exec World.step (World.init ι κ ready₀) ls = some w) :
    Inv w :=
  Run.exec_invariant (fun hw h => hw.step h) (Inv.init ready₀) h

end CondvarEventCount

/-! ### No wakeup is lost

Both invariants at a blocked waiter. The platform is part of the statement only where the
futex word is: what the kernel and the condition variable do is in the step functions. -/

/-- No reachable state of either eventcount has a waiter blocked while the predicate is true
and nobody is left inside `NotifyAll`, whatever the threads are and however their steps
interleave. Such a state would be a waiter that sleeps on a condition that holds, with
nobody left to tell it. -/
theorem lost_wakeup_free :
    (∀ (ι κ : Type) [DecidableEq ι] [DecidableEq κ] (word₀ : UInt32) (ready₀ : Bool)
      (ls : List (EventCount.Label ι κ)) (w : EventCount.World ι κ),
      Run.exec EventCount.World.step (EventCount.World.init ι κ word₀ ready₀) ls = some w →
      Run.Steps EventCount.World.step EventCount.FewMoves
        (EventCount.World.init ι κ word₀ ready₀) ls →
      w.ready = true → (∀ j, w.notifiers j ≠ .fetchAdd ∧ w.notifiers j ≠ .wake) →
      ∀ i, w.waiters i ≠ .blocked) ∧
    (∀ (ι κ : Type) [DecidableEq ι] [DecidableEq κ] (ready₀ : Bool)
      (ls : List (CondvarEventCount.Label ι κ)) (w : CondvarEventCount.World ι κ),
      Run.exec CondvarEventCount.World.step (CondvarEventCount.World.init ι κ ready₀) ls = some w →
      w.ready = true →
      (∀ j, w.notifiers j ≠ .lock ∧ w.notifiers j ≠ .unlock ∧ w.notifiers j ≠ .notify) →
      ∀ i, w.waiters i ≠ .blocked) := by
  constructor
  · intro ι κ _ _ word₀ ready₀ ls w h hfew hready hdone i hi
    have hcovered := (EventCount.run_inv h hfew).covered i
    rw [hi] at hcovered
    obtain ⟨j, hj | hj⟩ := hcovered hready
    · exact (hdone j).1 hj
    · exact (hdone j).2 hj
  · intro ι κ _ _ ready₀ ls w h hready hdone i hi
    obtain ⟨j, hj | hj | hj⟩ := (CondvarEventCount.run_inv h).blocked i hi hready
    · exact (hdone j).1 hj
    · exact (hdone j).2.1 hj
    · exact (hdone j).2.2 hj

/-- The waiter blocks on the old epoch after the predicate came true. -/
def parkedFutex : List (EventCount.Label Unit Unit) :=
  [.callWait (), .waiter () false, .waiter () false, .waiter () false, .callNotify (), .notifier (),
    .waiter () false, .notifier (), .notifier ()]

/-- The waiter blocks while the notifier is waiting for its mutex. -/
def parkedCondvar : List (CondvarEventCount.Label Unit Unit) :=
  [.callWait (), .waiter (), .waiter (), .callNotify (), .notifier (), .waiter (), .notifier (),
    .notifier (), .notifier ()]

theorem lost_wakeup_free_parked :
    (∃ w, Run.exec EventCount.World.step (.init Unit Unit 0 false) parkedFutex = some w ∧
      w.ready = true ∧ w.notifiers () = .done ∧ ∀ i, w.waiters i ≠ .blocked) ∧
    (∃ w, Run.exec CondvarEventCount.World.step (.init Unit Unit false) parkedCondvar = some w ∧
      w.ready = true ∧ w.notifiers () = .done ∧ ∀ i, w.waiters i ≠ .blocked) := by
  have hfutex : ∃ w, Run.exec EventCount.World.step (.init Unit Unit 0 false) parkedFutex = some w ∧
      w.ready = true ∧ w.notifiers () = .done := Run.exists_exec (by decide +kernel)
  have hcondvar : ∃ w,
      Run.exec CondvarEventCount.World.step (.init Unit Unit false) parkedCondvar = some w ∧
      w.ready = true ∧ w.notifiers () = .done := Run.exists_exec (by decide +kernel)
  obtain ⟨w, hexec, hready, hdone⟩ := hfutex
  obtain ⟨w', hexec', hready', hdone'⟩ := hcondvar
  refine ⟨⟨w, hexec, hready, hdone, ?_⟩, ⟨w', hexec', hready', hdone', ?_⟩⟩
  · exact lost_wakeup_free.1 Unit Unit 0 false _ w hexec (by decide +kernel) hready
      fun j => by rw [hdone]; decide
  · exact lost_wakeup_free.2 Unit Unit false _ w' hexec' hready'
      fun j => by rw [hdone']; decide

end XmBase.Concurrency
