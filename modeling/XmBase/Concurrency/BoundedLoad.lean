import XmBase.Concurrency.SeqlockRing
import Mathlib.Algebra.Order.Ring.Nat
/-!
# XmBase.Concurrency.BoundedLoad

`LoadBounded` against a memory that may do anything between two accesses. An attempt that
does not validate moves the 32-bit counter, and the test `attempt <= max_retries` ends the
loop after `max_retries + 1` of them, **unless `max_retries` is the largest value of the
counter**: then the test is always true, and on a sequence that stays odd the loop never
ends (`loadBounded_bounded_iff`).
-/

namespace XmBase.Concurrency

namespace SeqlockRing

open Atomic (Access Code)
open Bytes (ofWords)

variable {N size : Nat} [NeZero N]

/-- The access begins an attempt: it loads `write_count`. -/
def BoundedFrame.starts (f : BoundedFrame) : Bool := f.pc = .capture

/-- The access ends an attempt that did not validate: it finds the sequence odd, or
changed, or the copy was of another position. -/
def BoundedFrame.fails (m : Mem N size) : BoundedFrame → Bool
  | ⟨_, .capture⟩ => false
  | ⟨_, .first c⟩ => m (.seq (cellOf (c - 1).toNat)) &&& 1 ≠ 0
  | ⟨_, .index _ _⟩ => false
  | ⟨_, .copy c s1 idx staged⟩ =>
      kWords size ≤ staged.length && !(m (.seq (cellOf (c - 1).toNat)) = s1 && idx = c - 1)

section

variable (out : Payload size) (maxRetries : UInt32) (env : Nat → Mem N size)

/-- The call after `n` accesses, the `k`-th of which finds the memory `env k`. -/
def boundedCall (n : Nat) : BoundedFrame ⊕ (LoadResult × Payload size) :=
  (loadBounded out maxRetries).against env (.inl ⟨0, .capture⟩) n

/-- The attempts among the first `n` accesses. -/
def attempts (n : Nat) : Nat :=
  (loadBounded out maxRetries).visits env (.inl ⟨0, .capture⟩) (fun f _ => f.starts) n

/-- The attempts among the first `n` accesses that failed to validate. -/
def failedAttempts (n : Nat) : Nat :=
  (loadBounded out maxRetries).visits env (.inl ⟨0, .capture⟩) (fun f m => f.fails m) n

end

/-- Whatever the memory does, the call returns, after at most `maxRetries + 1` attempts, and
gives up exactly when that many have failed. `env` is arbitrary, so the statement does not
depend on what writers there are or whether any of them is alive. -/
def BoundedBy (N size : Nat) [NeZero N] (maxRetries : UInt32) : Prop :=
  ∀ (out : Payload size) (env : Nat → Mem N size), ∃ n r out',
    boundedCall out maxRetries env n = .inr (r, out') ∧
      attempts out maxRetries env n ≤ maxRetries.toNat + 1 ∧
      (r = .kStalled ↔ failedAttempts out maxRetries env n = maxRetries.toNat + 1)

/-! ### One access

An access of `LoadBounded` goes on, answers or fails its attempt, and how many accesses an
attempt makes is fixed by the payload size. So an attempt cannot be drawn out by a memory
that keeps changing; it can only be made to fail. -/

/-- The accesses an attempt still makes. -/
def ReadPc.left (size : Nat) : ReadPc → Nat
  | .capture => kWords size + 4
  | .first _ => kWords size + 3
  | .index _ _ => kWords size + 2
  | .copy _ _ _ staged => kWords size - staged.length + 1

/-- An access goes on with the attempt, or ends the call with an answer, or fails the
attempt. -/
theorem loadBounded_cases (out : Payload size) (maxRetries : UInt32) (f : BoundedFrame)
    (m : Mem N size) :
    (∃ pc, ((loadBounded out maxRetries f).exec m).2 = .inl ⟨f.attempt, pc⟩ ∧ pc ≠ .capture ∧
      pc.left size < f.pc.left size ∧ f.fails m = false) ∨
    (∃ r o, ((loadBounded out maxRetries f).exec m).2 = .inr (r, o) ∧ r ≠ .kStalled ∧
      f.fails m = false) ∨
    (((loadBounded out maxRetries f).exec m).2 = boundedRetry out maxRetries f.attempt ∧
      f.starts = false ∧ f.fails m = true) := by
  obtain ⟨attempt, pc⟩ := f
  cases pc with
  | capture =>
      by_cases hc : m .writeCount = 0
      · refine .inr (.inl ⟨.kEmpty, out, ?_, by decide, rfl⟩)
        simp only [loadBounded, Access.exec_load, if_pos hc]
      · refine .inl ⟨.first (m .writeCount), ?_, by simp, Nat.lt_succ_self _, rfl⟩
        simp only [loadBounded, Access.exec_load, if_neg hc]
  | first c =>
      by_cases hzero : m (.seq (cellOf (c - 1).toNat)) = 0
      · refine .inr (.inl ⟨.kEmpty, out, ?_, by decide, by simp [BoundedFrame.fails, hzero]⟩)
        simp only [loadBounded, Access.exec_load, if_pos hzero]
      · by_cases hodd : m (.seq (cellOf (c - 1).toNat)) &&& 1 ≠ 0
        · refine .inr (.inr ⟨?_, rfl, by simpa [BoundedFrame.fails] using hodd⟩)
          simp only [loadBounded, Access.exec_load, if_neg hzero, if_pos hodd]
        · refine .inl ⟨.index c (m (.seq (cellOf (c - 1).toNat))), ?_, by simp, Nat.lt_succ_self _,
            by simpa [BoundedFrame.fails] using hodd⟩
          simp only [loadBounded, Access.exec_load, if_neg hzero, if_neg hodd]
  | index c s1 =>
      refine .inl ⟨.copy c s1 (m (.index (cellOf (c - 1).toNat))) [], ?_, by simp,
        Nat.lt_succ_self _, rfl⟩
      simp only [loadBounded, Access.exec_load]
  | copy c s1 idx staged =>
      by_cases hleft : staged.length < kWords size
      · refine .inl ⟨.copy c s1 idx (staged ++ [m (.words (cellOf (c - 1).toNat) ⟨_, hleft⟩)]),
          ?_, by simp, ?_, by simp [BoundedFrame.fails, hleft]⟩
        · simp only [loadBounded, dif_pos hleft, Access.exec_load]
        · simp only [ReadPc.left, List.length_append, List.length_singleton]
          omega
      -- the copy is complete, and this access is the check behind it
      · by_cases hvalid : m (.seq (cellOf (c - 1).toNat)) = s1 ∧ idx = c - 1
        · refine .inr (.inl ⟨.kValue, ofWords staged, ?_, by decide,
            by simp [BoundedFrame.fails, hvalid]⟩)
          simp only [loadBounded, dif_neg hleft, Access.exec_load, if_pos hvalid]
        · refine .inr (.inr ⟨?_, rfl, ?_⟩)
          · simp only [loadBounded, dif_neg hleft, Access.exec_load, if_neg hvalid]
          · have hle := Nat.le_of_not_lt hleft
            simp only [BoundedFrame.fails, decide_eq_true hle, Bool.true_and, Bool.not_eq_true',
              Bool.and_eq_false_iff, decide_eq_false_iff_not]
            exact not_and_or.mp hvalid

/-! ### Whole calls

The invariant ties the counter of the code to the failed attempts as they are counted from
outside. It is what the largest budget breaks: there the counter wraps, and the test in the
loop head is true of every value. -/

section

variable {out : Payload size} {maxRetries : UInt32} {env : Nat → Mem N size}

/-- What a call in progress has behind it; `n` failed attempts are `n` in the counter. A
call that has returned keeps the two facts of `BoundedBy`. -/
def BoundedInv (out : Payload size) (maxRetries : UInt32) (env : Nat → Mem N size) (n : Nat) : Prop :=
  match boundedCall out maxRetries env n with
  | .inl f =>
      f.attempt ≤ maxRetries ∧ failedAttempts out maxRetries env n = f.attempt.toNat ∧
        attempts out maxRetries env n = f.attempt.toNat + (if f.starts then 0 else 1)
  | .inr (r, _) =>
      attempts out maxRetries env n ≤ maxRetries.toNat + 1 ∧
        (r = .kStalled ↔ failedAttempts out maxRetries env n = maxRetries.toNat + 1)

theorem boundedCall_succ {n : Nat} {f : BoundedFrame}
    (hf : boundedCall out maxRetries env n = .inl f) :
    boundedCall out maxRetries env (n + 1) = ((loadBounded out maxRetries f).exec (env n)).2 ∧
      attempts out maxRetries env (n + 1) =
        attempts out maxRetries env n + (if f.starts then 1 else 0) ∧
      failedAttempts out maxRetries env (n + 1) =
        failedAttempts out maxRetries env n + (if f.fails (env n) then 1 else 0) := by
  rw [boundedCall] at hf
  refine ⟨?_, ?_, ?_⟩
  · rw [boundedCall, Code.against, hf]
  · rw [attempts, attempts, Code.visits, hf]
  · rw [failedAttempts, failedAttempts, Code.visits, hf]

theorem boundedCall_succ_of_returned {n : Nat} {r : LoadResult × Payload size}
    (hr : boundedCall out maxRetries env n = .inr r) :
    boundedCall out maxRetries env (n + 1) = .inr r ∧
      attempts out maxRetries env (n + 1) = attempts out maxRetries env n ∧
      failedAttempts out maxRetries env (n + 1) = failedAttempts out maxRetries env n := by
  rw [boundedCall] at hr
  refine ⟨?_, ?_, ?_⟩
  · rw [boundedCall, Code.against, hr]
  · rw [attempts, attempts, Code.visits, hr]
    rfl
  · rw [failedAttempts, failedAttempts, Code.visits, hr]
    rfl

theorem toNat_succ_attempt {attempt : UInt32} (hmax : maxRetries ≠ 4294967295)
    (h : attempt ≤ maxRetries) : (attempt + 1).toNat = attempt.toNat + 1 := by
  have hlt := maxRetries.toNat_lt
  have hne : maxRetries.toNat ≠ 4294967295 := fun h => hmax (UInt32.toNat_inj.mp h)
  have hle := UInt32.le_iff_toNat_le.mp h
  rw [UInt32.toNat_add]
  show (attempt.toNat + 1) % 2 ^ 32 = _
  omega

/-- The counter of a failed attempt, where it cannot wrap. -/
theorem boundedRetry_cases (out : Payload size) {attempt : UInt32}
    (hmax : maxRetries ≠ 4294967295) (h : attempt ≤ maxRetries) :
    (boundedRetry out maxRetries attempt = .inl ⟨attempt + 1, .capture⟩ ∧
      attempt + 1 ≤ maxRetries ∧ (attempt + 1).toNat = attempt.toNat + 1) ∨
    (boundedRetry out maxRetries attempt = .inr (.kStalled, out) ∧ attempt = maxRetries) := by
  have hsucc := toNat_succ_attempt hmax h
  by_cases hle : attempt + 1 ≤ maxRetries
  · exact .inl ⟨if_pos hle, hle, hsucc⟩
  · refine .inr ⟨if_neg hle, ?_⟩
    rw [UInt32.le_iff_toNat_le] at hle h
    exact UInt32.toNat_inj.mp (by omega)

theorem boundedInv_succ (hmax : maxRetries ≠ 4294967295) {n : Nat}
    (h : BoundedInv out maxRetries env n) : BoundedInv out maxRetries env (n + 1) := by
  rw [BoundedInv] at h ⊢
  cases hcall : boundedCall out maxRetries env n with
  | inr a =>
      obtain ⟨h1, h2, h3⟩ := boundedCall_succ_of_returned hcall
      rw [hcall] at h
      rw [h1, h2, h3]
      exact h
  | inl f =>
      obtain ⟨h1, h2, h3⟩ := boundedCall_succ hcall
      rw [hcall] at h
      obtain ⟨hle, hfailed, hattempts⟩ := h
      have hle' := UInt32.le_iff_toNat_le.mp hle
      have hcount : attempts out maxRetries env (n + 1) = f.attempt.toNat + 1 := by
        rw [h2, hattempts]
        split <;> rfl
      rcases loadBounded_cases out maxRetries f (env n) with
        ⟨pc, hnext, hpc, -, hok⟩ | ⟨r, o, hnext, hr, hok⟩ | ⟨hnext, -, hbad⟩
      · rw [hok] at h3
        rw [h1, hnext, h3, hcount]
        exact ⟨hle, hfailed, by simp [BoundedFrame.starts, hpc]⟩
      · rw [hok] at h3
        rw [h1, hnext, h3, hcount, hfailed]
        refine ⟨Nat.succ_le_succ hle', iff_of_false hr ?_⟩
        exact (Nat.lt_succ_of_le hle').ne
      · rw [hbad, if_pos rfl, hfailed] at h3
        rcases boundedRetry_cases out hmax hle with ⟨heq, hle'', hsucc⟩ | ⟨heq, hlast⟩
        · rw [h1, hnext, heq, h3, hcount]
          exact ⟨hle'', hsucc.symm, by rw [hsucc]; rfl⟩
        · rw [h1, hnext, heq, h3, hcount, hlast]
          exact ⟨le_rfl, iff_of_true rfl rfl⟩

theorem boundedInv (out : Payload size) (env : Nat → Mem N size) (hmax : maxRetries ≠ 4294967295)
    (n : Nat) :
    BoundedInv out maxRetries env n := by
  induction n with
  | zero => exact ⟨UInt32.le_iff_toNat_le.mpr (Nat.zero_le _), rfl, rfl⟩
  | succ n ih => exact boundedInv_succ hmax ih

/-- Attempts and, within one, accesses are used up. The two counts go down
lexicographically, whatever the accesses find. -/
theorem exists_boundedCall_inr (out : Payload size) (env : Nat → Mem N size)
    (hmax : maxRetries ≠ 4294967295) :
    ∃ n r, boundedCall out maxRetries env n = .inr r := by
  refine Code.exists_against_inr (fun f => f.attempt ≤ maxRetries)
    (fun f => (maxRetries.toNat - f.attempt.toNat) * (kWords size + 4) + f.pc.left size)
    (fun f m hvalid => ?_) (UInt32.le_iff_toNat_le.mpr (Nat.zero_le _)) env
  rcases loadBounded_cases out maxRetries f m with
    ⟨pc, hnext, -, hleft, -⟩ | ⟨r, o, hnext, -, -⟩ | ⟨hnext, hstarts, -⟩
  · exact .inr ⟨_, hnext, hvalid, Nat.add_lt_add_left hleft _⟩
  · exact .inl ⟨_, hnext⟩
  · rcases boundedRetry_cases out hmax hvalid with ⟨heq, hle, hsucc⟩ | ⟨heq, -⟩
    · refine .inr ⟨_, hnext.trans heq, hle, ?_⟩
      have hle' := UInt32.le_iff_toNat_le.mp hle
      have hsplit : maxRetries.toNat - f.attempt.toNat =
          maxRetries.toNat - (f.attempt + 1).toNat + 1 := by omega
      have hpos : 0 < f.pc.left size := by
        cases f.pc <;> exact Nat.succ_pos _
      show (maxRetries.toNat - (f.attempt + 1).toNat) * (kWords size + 4) + (kWords size + 4) <
        (maxRetries.toNat - f.attempt.toNat) * (kWords size + 4) + f.pc.left size
      rw [hsplit, Nat.succ_mul]
      exact Nat.lt_add_of_pos_right hpos
    · exact .inl ⟨_, hnext.trans heq⟩

end

/-! ### The largest budget -/

/-- A dead writer's memory: something is published and every sequence is odd. -/
def stuckOdd : Mem N size := fun _ => 1

theorem boundedCall_stuckOdd (out : Payload size) (k : Nat) :
    boundedCall out 4294967295 (fun _ => (stuckOdd : Mem N size)) (2 * k) =
      .inl ⟨.ofNat k, .capture⟩ := by
  induction k with
  | zero => rfl
  | succ k ih =>
      have hfirst : boundedCall out 4294967295 (fun _ => (stuckOdd : Mem N size)) (2 * k + 1) =
          .inl ⟨.ofNat k, .first 1⟩ :=
        (boundedCall_succ ih).1
      have hretry : boundedCall out 4294967295 (fun _ => (stuckOdd : Mem N size)) (2 * k + 2) =
          boundedRetry out 4294967295 (.ofNat k) := by
        rw [(boundedCall_succ hfirst).1]
        simp [loadBounded, stuckOdd]
      have hle : UInt32.ofNat k + 1 ≤ 4294967295 :=
        UInt32.le_iff_toNat_le.mpr (Nat.le_of_lt_succ (UInt32.toNat_lt _))
      rw [Nat.mul_succ, hretry, boundedRetry, if_pos hle, ← UInt32.ofNat_one, ← UInt32.ofNat_add]

theorem boundedCall_stuckOdd_ne_inr (out : Payload size) (n : Nat) (r : LoadResult × Payload size) :
    boundedCall out 4294967295 (fun _ => (stuckOdd : Mem N size)) n ≠ .inr r := by
  intro hret
  have hstays (k : Nat) :
      boundedCall out 4294967295 (fun _ => (stuckOdd : Mem N size)) (n + k) = .inr r := by
    induction k with
    | zero => exact hret
    | succ k ih => exact (boundedCall_succ_of_returned ih).1
  have hcycle := boundedCall_stuckOdd (N := N) out n
  rw [Nat.two_mul, hstays n] at hcycle
  cases hcycle

/-- **`LoadBounded` is bounded for every budget but the largest.** The budget `2 ^ 32 - 1`
fails on one memory, `stuckOdd`, and all others hold on every memory. -/
theorem loadBounded_bounded_iff (N size : Nat) [NeZero N] (maxRetries : UInt32) :
    BoundedBy N size maxRetries ↔ maxRetries ≠ 4294967295 := by
  refine ⟨fun h hmax => ?_, fun hmax out env => ?_⟩
  · rw [hmax] at h
    obtain ⟨n, r, out', hret, -⟩ := h (.replicate size 0) fun _ => stuckOdd
    exact boundedCall_stuckOdd_ne_inr _ n (r, out') hret
  · obtain ⟨n, ⟨r, out'⟩, hret⟩ := exists_boundedCall_inr out env hmax
    have hinv := boundedInv out env hmax n
    rw [BoundedInv, hret] at hinv
    exact ⟨n, r, out', hret, hinv⟩

/-- A budget of three on the ring of depth one. -/
theorem loadBounded_bounded_three : BoundedBy 1 8 3 :=
  (loadBounded_bounded_iff 1 8 3).mpr (by decide)

/-- With the largest budget a permanently odd sequence is spun on forever. -/
theorem loadBounded_unbounded_max :
    (¬ ∃ n r, boundedCall (N := 1) (.replicate 8 0) 4294967295 (fun _ => stuckOdd) n = .inr r) ∧
      ¬ BoundedBy 1 8 4294967295 := by
  have hspins : ¬ ∃ n r,
      boundedCall (N := 1) (.replicate 8 0) 4294967295 (fun _ => stuckOdd) n = .inr r := by
    intro ⟨n, r, hret⟩
    exact boundedCall_stuckOdd_ne_inr _ n r hret
  refine ⟨hspins, fun h => ?_⟩
  obtain ⟨n, r, out', hret, -⟩ := h (.replicate 8 0) fun _ => stuckOdd
  exact hspins ⟨n, (r, out'), hret⟩

end SeqlockRing

end XmBase.Concurrency
