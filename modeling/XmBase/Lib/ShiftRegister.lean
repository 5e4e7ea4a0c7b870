import Mathlib.Algebra.BigOperators.Group.Finset.Basic
import Mathlib.Algebra.Field.ZMod
import Mathlib.Data.List.GetD
import Mathlib.Dynamics.PeriodicPts.Lemmas
import Mathlib.Tactic.Ring
/-!
# XmBase.Lib.ShiftRegister

**Linear feedback shift registers over bits.** A register of `w` cells takes in one
bit after the other; the bit that leaves at the top, combined with the one that
comes in, is fed back at the `taps`. This is division by the polynomial the taps
spell, one coefficient at a time, and everything here is linear in exclusive or:

* `run_xor` — the register that sees the difference of two inputs is the difference
  of the two registers;
* `run_eq_zero_iff` — an input no longer than the register empties it exactly when
  it repeats what is in it;
* `parity_run` — where the taps are odd in number, the parity of the register is that
  of the input;
* `run_two_ne_zero` — two ones closer than the period do not cancel;
* `power_eq` — the orbit of the register by repeated squaring, so that a period can be
  evaluated;
* `run_detectable_ne_zero` — an input that leaves the register empty is no burst, has an
  even number of ones, and not two of them within the period.
-/

namespace XmBase.ShiftRegister

variable {w : Nat}

/-- One move of the register without input. -/
def shift (taps s : BitVec w) : BitVec w := (s <<< 1) ^^^ (if s.getMsbD 0 then taps else 0#w)

/-- One move of the register that takes in a bit. -/
def step (taps s : BitVec w) (d : Bool) : BitVec w := shift taps s ^^^ (if d then taps else 0#w)

/-- The input, first bit first. -/
def run (taps s : BitVec w) (ds : List Bool) : BitVec w := ds.foldl (step taps) s

variable {taps : BitVec w}

@[simp] theorem run_nil (s : BitVec w) : run taps s [] = s := rfl

@[simp] theorem run_cons (s : BitVec w) (d : Bool) (ds : List Bool) :
    run taps s (d :: ds) = run taps (step taps s d) ds := rfl

@[simp] theorem run_append (s : BitVec w) (ds es : List Bool) :
    run taps s (ds ++ es) = run taps (run taps s ds) es := List.foldl_append

@[simp] theorem step_false (s : BitVec w) : step taps s false = shift taps s := by
  simp [step]

/-! ### Linearity

Everything a register does is linear over exclusive or, so what it held and what it took in
can be followed apart. For a check this means: whether an error is noticed depends on the
error and not on the message. -/

theorem ite_xor (a b : Bool) (x : BitVec w) :
    (if (a ^^ b) = true then x else 0#w) = (if a then x else 0#w) ^^^ (if b then x else 0#w) := by
  cases a <;> cases b <;> simp

theorem xor_xor_xor_comm (a b c d : BitVec w) :
    (a ^^^ b) ^^^ (c ^^^ d) = (a ^^^ c) ^^^ (b ^^^ d) := by
  ac_rfl

theorem shift_xor (a b : BitVec w) : shift taps (a ^^^ b) = shift taps a ^^^ shift taps b := by
  simp only [shift, BitVec.getMsbD_xor, ite_xor, BitVec.shiftLeft_xor_distrib]
  exact xor_xor_xor_comm ..

@[simp] theorem shift_zero : shift taps 0#w = 0#w := by
  simp [shift]

theorem step_xor (a b : BitVec w) (d e : Bool) :
    step taps (a ^^^ b) (d ^^ e) = step taps a d ^^^ step taps b e := by
  simp only [step, shift_xor, ite_xor]
  exact xor_xor_xor_comm ..

/-- The register is linear in what it holds and what it takes in. -/
theorem run_xor {ds es : List Bool} (h : ds.length = es.length) (a b : BitVec w) :
    run taps (a ^^^ b) (List.zipWith xor ds es) = run taps a ds ^^^ run taps b es := by
  induction ds generalizing es a b with
  | nil =>
      obtain rfl := List.eq_nil_of_length_eq_zero h.symm
      rfl
  | cons d ds ih =>
      cases es with
      | nil => cases h
      | cons e es =>
          rw [List.zipWith_cons_cons, run_cons, run_cons, run_cons, step_xor]
          exact ih (Nat.succ.inj h) ..

theorem iterate_shift_xor (n : Nat) (a b : BitVec w) :
    (shift taps)^[n] (a ^^^ b) = (shift taps)^[n] a ^^^ (shift taps)^[n] b := by
  induction n generalizing a b with
  | zero => rfl
  | succ n ih => rw [Function.iterate_succ_apply, shift_xor, ih]; rfl

@[simp] theorem iterate_shift_zero (n : Nat) : (shift taps)^[n] 0#w = 0#w :=
  Function.iterate_fixed shift_zero n

/-- Zeros only move the register. So an error can be followed from its first bit to its
last. -/
theorem run_replicate_false (s : BitVec w) (n : Nat) :
    run taps s (List.replicate n false) = (shift taps)^[n] s := by
  induction n generalizing s with
  | zero => rfl
  | succ n ih => rw [List.replicate_succ, run_cons, step_false, ih, Function.iterate_succ_apply]

/-- What the register held and what it took in, apart. -/
theorem run_eq_iterate (s : BitVec w) (ds : List Bool) :
    run taps s ds = (shift taps)^[ds.length] s ^^^ run taps 0#w ds := by
  have hzeros : List.zipWith xor (List.replicate ds.length false) ds = ds := by
    apply List.ext_getElem <;> simp
  calc run taps s ds
      = run taps (s ^^^ 0#w) (List.zipWith xor (List.replicate ds.length false) ds) := by
        rw [hzeros, BitVec.xor_zero]
    _ = _ := by rw [run_xor List.length_replicate, run_replicate_false]

/-! ### Inputs no longer than the register

As long as no fed-back bit has come round to the top, the cells that leave are those that
were there first. An input of at most the register's length therefore cancels it in one way
only. -/

/-- The register holds the bits at its top, and zeros below. It is the state of a register
that has shifted the bits in from above. -/
def Loaded (s : BitVec w) (ds : List Bool) : Prop := ∀ i < w, s.getMsbD i = ds.getD i false

/-- Without feedback the register moves up one cell. -/
theorem step_of_eq {s : BitVec w} {d : Bool} (h : s.getMsbD 0 = d) : step taps s d = s <<< 1 := by
  subst h
  cases h : s.getMsbD 0 with
  | false => simp [step, shift, h]
  | true =>
      -- what the top cell feeds back, the input takes out again
      rw [step, shift, h, if_pos rfl, BitVec.xor_assoc, BitVec.xor_self, BitVec.xor_zero]

section Bottom

variable {n : Nat} {taps : BitVec (n + 1)} (htaps : taps.getMsbD n = true)

include htaps

/-- The cell at the bottom is written by the feedback alone. -/
theorem getMsbD_step_last (s : BitVec (n + 1)) (d : Bool) : (step taps s d).getMsbD n = (s.getMsbD 0 ^^ d) := by
  cases d <;> cases h : s.getMsbD 0 <;>
    simp [step, shift, h, htaps, BitVec.getMsbD_shiftLeft, BitVec.getMsbD_xor]

/-- An input no longer than the register empties it exactly when it repeats what the
register holds. -/
theorem run_eq_zero_iff {ds : List Bool} (hlen : ds.length ≤ n + 1) (s : BitVec (n + 1)) :
    run taps s ds = 0#(n + 1) ↔ Loaded s ds := by
  induction ds generalizing s with
  | nil =>
      constructor
      · rintro rfl i _
        simp
      · intro h
        apply BitVec.eq_of_getMsbD_eq
        intro i hi
        simpa using h i hi
  | cons d ds ih =>
      have hlen' : ds.length ≤ n := Nat.le_of_succ_le_succ hlen
      rw [run_cons, ih (hlen'.trans (Nat.le_succ n))]
      constructor
      · intro h
        -- nothing was fed back, since the rest of the input does not reach the bottom cell
        have htop : s.getMsbD 0 = d := by
          have hlast := h n (Nat.lt_succ_self n)
          rw [getMsbD_step_last htaps, List.getD_eq_default _ _ hlen'] at hlast
          simpa using hlast
        rw [step_of_eq htop] at h
        intro i hi
        cases i with
        | zero => exact htop
        | succ i =>
            have hi' := h i (Nat.lt_of_succ_lt hi)
            rw [BitVec.getMsbD_shiftLeft] at hi'
            exact hi'
      · intro h
        have htop : s.getMsbD 0 = d := h 0 (Nat.succ_pos n)
        rw [step_of_eq htop]
        intro i hi
        rw [BitVec.getMsbD_shiftLeft]
        by_cases hin : i < n
        · exact h (i + 1) (Nat.succ_lt_succ hin)
        · have hout : n + 1 ≤ i + 1 := Nat.succ_le_succ (Nat.not_lt.mp hin)
          rw [BitVec.getMsbD_of_ge s (i + 1) hout,
            List.getD_eq_default _ _ (hlen'.trans (Nat.not_lt.mp hin))]

/-- Taking the bits in one by one is loading them at the top and moving. -/
theorem run_eq_shift_load {ds : List Bool} (hlen : ds.length ≤ n + 1) {t : BitVec (n + 1)} (ht : Loaded t ds)
    (s : BitVec (n + 1)) : run taps s ds = (shift taps)^[ds.length] (s ^^^ t) := by
  have hempty := (run_eq_zero_iff htaps hlen t).mpr ht
  rw [run_eq_iterate] at hempty
  rw [run_eq_iterate, iterate_shift_xor, BitVec.xor_eq_zero_iff.mp hempty]

/-- The register does not forget. -/
theorem shift_injective :
    Function.Injective (shift taps) := by
  intro a b hab
  have hzero : run taps (a ^^^ b) [false] = 0#(n + 1) := by
    rw [run_cons, run_nil, step_false, shift_xor, hab, BitVec.xor_self]
  have hload := (run_eq_zero_iff htaps (by simp) _).mp hzero
  have hxor : a ^^^ b = 0#(n + 1) := by
    apply BitVec.eq_of_getMsbD_eq
    intro i hi
    rw [hload i hi]
    cases i <;> simp
  exact BitVec.xor_eq_zero_iff.mp hxor

theorem iterate_shift_eq_zero {k : Nat} {s : BitVec (n + 1)} (h : (shift taps)^[k] s = 0#(n + 1)) : s = 0#(n + 1) :=
  (shift_injective htaps).iterate k (h.trans (iterate_shift_zero k).symm)

end Bottom

/-! ### Parity

With an odd number of taps, a bit that leaves at the top is made up for at the taps, so the
parity of the register is that of all it has taken in. A generator with the factor `X + 1`
is such a one. -/

/-- A bit as an element of the field. -/
def bit (d : Bool) : ZMod 2 := if d then 1 else 0

@[simp] theorem bit_xor (a b : Bool) : bit (a ^^ b) = bit a + bit b := by
  cases a <;> cases b <;> decide

@[simp] theorem bit_false : bit false = 0 := rfl

@[simp] theorem bit_true : bit true = 1 := rfl

/-- The parity of the ones in the register. -/
def parity (s : BitVec w) : ZMod 2 := ∑ i ∈ Finset.range w, bit (s.getMsbD i)

theorem parity_xor (a b : BitVec w) : parity (a ^^^ b) = parity a + parity b := by
  have h : ∀ i ∈ Finset.range w, bit ((a ^^^ b).getMsbD i) = bit (a.getMsbD i) + bit (b.getMsbD i) := by
    intro i _
    rw [BitVec.getMsbD_xor, bit_xor]
  rw [parity, Finset.sum_congr rfl h, Finset.sum_add_distrib]
  rfl

theorem parity_shiftLeft (s : BitVec w) : parity (s <<< 1) + bit (s.getMsbD 0) = parity s := by
  have hmove : parity (s <<< 1) = ∑ i ∈ Finset.range w, bit (s.getMsbD (i + 1)) :=
    Finset.sum_congr rfl fun i _ => by rw [BitVec.getMsbD_shiftLeft]
  rw [hmove, ← Finset.sum_range_succ' fun i => bit (s.getMsbD i), Finset.sum_range_succ,
    BitVec.getMsbD_of_ge s w (Nat.le_refl w), bit_false, add_zero]
  rfl

theorem parity_ite (d : Bool) (htaps : parity taps = 1) :
    parity (if d then taps else 0#w) = bit d := by
  cases d with
  | false => simp [parity]
  | true => exact htaps

/-- Where the taps are odd in number, what leaves at the top comes back. -/
theorem parity_step (htaps : parity taps = 1) (s : BitVec w) (d : Bool) :
    parity (step taps s d) = parity s + bit d := by
  rw [step, shift, parity_xor, parity_xor, parity_ite _ htaps, parity_ite _ htaps,
    parity_shiftLeft]

/-- The register has the parity of its input. -/
theorem parity_run (htaps : parity taps = 1) (s : BitVec w) (ds : List Bool) :
    parity (run taps s ds) = parity s + (ds.count true : ZMod 2) := by
  induction ds generalizing s with
  | nil => simp
  | cons d ds ih =>
      rw [run_cons, ih, parity_step htaps]
      cases d with
      | false => simp
      | true =>
          rw [List.count_cons_self, bit_true]
          push_cast
          ring

/-! ### Two ones

The second one of an input cancels the first only if the register has come back to the taps
in between, which takes its period. -/

/-- The first one of an input. -/
theorem exists_first {ds : List Bool} {n : Nat} (h : ds.count true = n + 1) :
    ∃ k rest, ds = List.replicate k false ++ true :: rest ∧ rest.count true = n := by
  induction ds with
  | nil => cases h
  | cons d ds ih =>
      cases d with
      | true =>
          rw [List.count_cons_self] at h
          exact ⟨0, ds, rfl, Nat.succ.inj h⟩
      | false =>
          obtain ⟨k, rest, rfl, hrest⟩ := ih (by simpa using h)
          exact ⟨k + 1, rest, rfl, hrest⟩

theorem eq_replicate_of_count {ds : List Bool} (h : ds.count true = 0) :
    ds = List.replicate ds.length false := by
  rw [List.eq_replicate_iff]
  refine ⟨rfl, fun d hd => ?_⟩
  cases d with
  | false => rfl
  | true => exact absurd hd (List.count_eq_zero.mp h)

/-- Two ones closer than the period do not cancel. -/
theorem run_two_ne_zero {n : Nat} {taps : BitVec (n + 1)} (htaps : taps.getMsbD n = true)
    {ds : List Bool} (hlen : ds.length ≤ Function.minimalPeriod (shift taps) taps)
    (h : ds.count true = 2) : run taps 0#(n + 1) ds ≠ 0#(n + 1) := by
  obtain ⟨k, rest, rfl, hrest⟩ := exists_first h
  obtain ⟨d, rest', rfl, hrest'⟩ := exists_first hrest
  rw [eq_replicate_of_count hrest']
  intro hrun
  have htrue : ∀ s, step taps s true = shift taps s ^^^ taps := fun s => rfl
  simp only [run_append, run_cons, run_replicate_false, iterate_shift_zero, htrue, shift_zero,
    BitVec.zero_xor] at hrun
  have heq := BitVec.xor_eq_zero_iff.mp (iterate_shift_eq_zero htaps hrun)
  rw [← Function.iterate_succ_apply' (shift taps)] at heq
  refine Function.not_isPeriodicPt_of_pos_of_lt_minimalPeriod (Nat.succ_ne_zero d) ?_ heq
  refine Nat.lt_of_lt_of_le ?_ hlen
  simp only [List.length_append, List.length_cons, List.length_replicate]
  omega

/-! ### Powers

The period of a 16-bit register is too long to walk step by step in a proof. The moves are
powers of `X`, so the orbit is evaluated by repeated squaring, and a period is the least one
when none of its quotients by a prime is a period. -/

/-- The bits of the register, top first. -/
def bits (s : BitVec w) : List Bool := (List.range w).map s.getMsbD

@[simp] theorem length_bits (s : BitVec w) : (bits s).length = w := by
  simp [bits]

theorem loaded_bits (s : BitVec w) : Loaded s (bits s) := by
  intro i hi
  simp [bits, List.getD_eq_getElem?_getD, hi]

/-- The input `ds` with `t` in place of the taps: Horner's rule. -/
def horner (taps t : BitVec w) (s : BitVec w) (ds : List Bool) : BitVec w :=
  ds.foldl (fun s d => shift taps s ^^^ (if d then t else 0#w)) s

theorem horner_shift (t s : BitVec w) (ds : List Bool) :
    horner taps (shift taps t) (shift taps s) ds = shift taps (horner taps t s ds) := by
  induction ds generalizing s with
  | nil => rfl
  | cons d ds ih =>
      have hstep : shift taps (shift taps s) ^^^ (if d then shift taps t else 0#w) =
          shift taps (shift taps s ^^^ (if d then t else 0#w)) := by
        rw [shift_xor]
        cases d <;> simp
      show horner taps (shift taps t) (_ ^^^ _) ds = _
      rw [hstep, ih]
      rfl

/-- The product of two registers, as polynomials. -/
def mul (taps a b : BitVec w) : BitVec w := horner taps a 0#w (bits b)

theorem mul_iterate (k : Nat) (a b : BitVec w) :
    mul taps ((shift taps)^[k] a) b = (shift taps)^[k] (mul taps a b) := by
  induction k with
  | zero => rfl
  | succ k ih =>
      have hshift : horner taps (shift taps ((shift taps)^[k] a)) (shift taps 0#w) (bits b) =
          shift taps (horner taps ((shift taps)^[k] a) 0#w (bits b)) := horner_shift ..
      rw [shift_zero] at hshift
      rw [Function.iterate_succ_apply', Function.iterate_succ_apply', ← ih]
      exact hshift

theorem iterate_shift_one {n : Nat} {taps : BitVec (n + 1)} {k : Nat} (hk : k ≤ n) :
    (shift taps)^[k] 1#(n + 1) = 1#(n + 1) <<< k := by
  induction k with
  | zero => simp
  | succ k ih =>
      have htop : (1#(n + 1) <<< k).getMsbD 0 = false := by
        rw [BitVec.getMsbD_shiftLeft]
        simp
        omega
      rw [Function.iterate_succ_apply', ih (Nat.le_of_succ_le hk), shift, htop,
        BitVec.shiftLeft_add]
      simp

/-- The taps are what a one leaves when it reaches the top. -/
theorem iterate_shift_one_eq_taps {n : Nat} {taps : BitVec (n + 1)} :
    (shift taps)^[n + 1] 1#(n + 1) = taps := by
  have htop : (1#(n + 1) <<< n).getMsbD 0 = true := by
    rw [BitVec.getMsbD_shiftLeft]
    simp
  have hout : (1#(n + 1) <<< n) <<< 1 = 0#(n + 1) := by
    rw [← BitVec.shiftLeft_add]
    exact BitVec.shiftLeft_eq_zero (Nat.le_refl _)
  rw [Function.iterate_succ_apply', iterate_shift_one (Nat.le_refl n), shift, htop, hout]
  simp

section Powers

variable {n : Nat} {taps : BitVec (n + 1)} (htaps : taps.getMsbD n = true)

include htaps

theorem mul_one_left (b : BitVec (n + 1)) : mul taps 1#(n + 1) b = b := by
  -- times the taps is the register's own input, which empties against `b`
  have hempty := (run_eq_zero_iff htaps (by simp) b).mpr (loaded_bits b)
  rw [run_eq_iterate, length_bits] at hempty
  have htapsmul : mul taps taps b = (shift taps)^[n + 1] b := (BitVec.xor_eq_zero_iff.mp hempty).symm
  apply (shift_injective htaps).iterate (n + 1)
  rw [← mul_iterate, iterate_shift_one_eq_taps, htapsmul]

theorem mul_iterate_one (k m : Nat) :
    mul taps ((shift taps)^[k] 1#(n + 1)) ((shift taps)^[m] 1#(n + 1)) =
      (shift taps)^[k + m] 1#(n + 1) := by
  rw [mul_iterate, mul_one_left htaps, Function.iterate_add_apply]

end Powers

/-- The number with the binary digits `ds`. -/
def number (ds : List Bool) : Nat := ds.foldl (fun k d => 2 * k + d.toNat) 0

/-- The register a one reaches in `number ds` moves, by repeated squaring. Each digit is one
squaring and at most one move. -/
def power (taps : BitVec w) (ds : List Bool) : BitVec w :=
  ds.foldl (fun s d => if d then shift taps (mul taps s s) else mul taps s s) 1#w

theorem power_eq {n : Nat} {taps : BitVec (n + 1)} (htaps : taps.getMsbD n = true)
    (ds : List Bool) : power taps ds = (shift taps)^[number ds] 1#(n + 1) := by
  have hfold : ∀ (ds : List Bool) (k : Nat),
      ds.foldl (fun s d => if d then shift taps (mul taps s s) else mul taps s s)
        ((shift taps)^[k] 1#(n + 1)) =
      (shift taps)^[ds.foldl (fun k d => 2 * k + d.toNat) k] 1#(n + 1) := by
    intro ds
    induction ds with
    | nil => intro k; rfl
    | cons d ds ih =>
        intro k
        rw [List.foldl_cons, List.foldl_cons, ← ih, mul_iterate_one htaps, ← Nat.two_mul]
        cases d with
        | false => rfl
        | true => rw [if_pos rfl, ← Function.iterate_succ_apply' (shift taps)]; rfl
  exact hfold ds 0

/-- A period, evaluated. -/
theorem isPeriodicPt_number_iff {n : Nat} {taps : BitVec (n + 1)} (htaps : taps.getMsbD n = true)
    (ds : List Bool) :
    Function.IsPeriodicPt (shift taps) (number ds) 1#(n + 1) ↔ power taps ds = 1#(n + 1) := by
  rw [power_eq htaps]
  rfl

/-- A period is the least one when no quotient of it by a prime is one. -/
theorem minimalPeriod_eq {α : Type*} {f : α → α} {x : α} {p : Nat}
    (h : Function.IsPeriodicPt f p x)
    (hprime : ∀ q, q.Prime → q ∣ p → ¬ Function.IsPeriodicPt f (p / q) x) :
    Function.minimalPeriod f x = p := by
  obtain ⟨k, hk⟩ := h.minimalPeriod_dvd
  by_contra hne
  have hk1 : k ≠ 1 := by
    rintro rfl
    exact hne (by rw [hk, Nat.mul_one])
  obtain ⟨q, hq, c, hc⟩ := Nat.exists_prime_and_dvd hk1
  refine hprime q hq ⟨Function.minimalPeriod f x * c, by rw [hk, hc]; ring⟩ ?_
  have hquot : p / q = Function.minimalPeriod f x * c := by
    rw [hk, hc, Nat.mul_left_comm, Nat.mul_div_cancel_left _ hq.pos]
  rw [hquot]
  exact (Function.isPeriodicPt_minimalPeriod f x).mul_const c

/-- The taps are on the orbit of the one. -/
theorem minimalPeriod_taps {n p : Nat} {taps : BitVec (n + 1)} (hp : 0 < p)
    (h : Function.minimalPeriod (shift taps) 1#(n + 1) = p) :
    Function.minimalPeriod (shift taps) taps = p := by
  have hone : 1#(n + 1) ∈ Function.periodicPts (shift taps) :=
    Function.minimalPeriod_pos_iff_mem_periodicPts.mp (h ▸ hp)
  have horbit := Function.minimalPeriod_apply_iterate hone (n + 1)
  rw [iterate_shift_one_eq_taps, h] at horbit
  exact horbit

/-! ### What the register detects

The kinds of error that a check is chosen for, in one predicate, and that none of them
leaves an empty register empty. Of the few ones in a short input only the case of two is
new: one and three are odd numbers. -/

/-- A difference that a register of `width` cells and period `limit` has to notice:
a burst, an odd number of ones, or a few ones in a short input. -/
def Detectable (width limit : Nat) (ds : List Bool) : Prop :=
  (true ∈ ds ∧ ∃ k, ∀ i, ds[i]? = some true → k ≤ i ∧ i < k + width) ∨
  Odd (ds.count true) ∨
  (ds.length ≤ limit ∧ 1 ≤ ds.count true ∧ ds.count true ≤ 3)

/-- An empty register that an input no longer than it leaves empty saw no one. -/
theorem count_eq_zero_of_run {n : Nat} {taps : BitVec (n + 1)} (htaps : taps.getMsbD n = true)
    {ds : List Bool} (hlen : ds.length ≤ n + 1)
    (h : run taps 0#(n + 1) ds = 0#(n + 1)) : ds.count true = 0 := by
  have hload := (run_eq_zero_iff htaps hlen _).mp h
  rw [List.count_eq_zero]
  intro hmem
  obtain ⟨i, hi, htrue⟩ := List.mem_iff_getElem.mp hmem
  have hfalse := hload i (Nat.lt_of_lt_of_le hi hlen)
  rw [BitVec.getMsbD_zero, List.getD_eq_getElem _ _ hi, htrue] at hfalse
  cases hfalse

/-- The ones of a burst lie in a window no longer than the register. -/
theorem run_burst_ne_zero {n : Nat} {taps : BitVec (n + 1)} (htaps : taps.getMsbD n = true)
    {ds : List Bool} (h : true ∈ ds) {k : Nat}
    (hk : ∀ i : Nat, ds[i]? = some true → k ≤ i ∧ i < k + (n + 1)) :
    run taps 0#(n + 1) ds ≠ 0#(n + 1) := by
  have hbefore : (ds.take k).count true = 0 := by
    rw [List.count_eq_zero]
    intro hmem
    obtain ⟨i, hi, htrue⟩ := List.mem_take_iff_getElem.mp hmem
    have := hk i (List.getElem?_eq_some_iff.mpr ⟨by omega, htrue⟩)
    omega
  have hafter : ((ds.drop k).drop (n + 1)).count true = 0 := by
    rw [List.count_eq_zero, List.drop_drop]
    intro hmem
    obtain ⟨i, hi, htrue⟩ := List.mem_drop_iff_getElem.mp hmem
    have := hk (k + (n + 1) + i) (List.getElem?_eq_some_iff.mpr ⟨by omega, htrue⟩)
    omega
  have hsplit : ds = ds.take k ++ ((ds.drop k).take (n + 1) ++ (ds.drop k).drop (n + 1)) := by
    rw [List.take_append_drop, List.take_append_drop]
  intro hrun
  have hwindow : ((ds.drop k).take (n + 1)).count true = 0 := by
    rw [hsplit, run_append, run_append, eq_replicate_of_count hbefore,
      eq_replicate_of_count hafter, run_replicate_false, run_replicate_false,
      iterate_shift_zero] at hrun
    exact count_eq_zero_of_run htaps (List.length_take_le ..) (iterate_shift_eq_zero htaps hrun)
  have hcount : ds.count true = 0 := by
    rw [hsplit, List.count_append, List.count_append, hbefore, hwindow, hafter]
  exact List.count_eq_zero.mp hcount h

theorem run_odd_ne_zero (htaps : parity taps = 1) {ds : List Bool} (h : Odd (ds.count true)) :
    run taps 0#w ds ≠ 0#w := by
  intro hrun
  have hzero : parity 0#w = 0 := by
    simp [parity]
  have hparity := parity_run htaps 0#w ds
  rw [hrun, hzero, zero_add, ZMod.natCast_eq_one_iff_odd.mpr h] at hparity
  cases hparity

/-- No detectable difference leaves the register empty. -/
theorem run_detectable_ne_zero {n limit : Nat} {taps : BitVec (n + 1)}
    (htaps : taps.getMsbD n = true) (hodd : parity taps = 1)
    (hlimit : Function.minimalPeriod (shift taps) taps = limit) {ds : List Bool}
    (h : Detectable (n + 1) limit ds) : run taps 0#(n + 1) ds ≠ 0#(n + 1) := by
  rcases h with ⟨hmem, k, hk⟩ | hcount | ⟨hlen, hlow, hhigh⟩
  · exact run_burst_ne_zero htaps hmem hk
  · exact run_odd_ne_zero hodd hcount
  · by_cases htwo : ds.count true = 2
    · exact run_two_ne_zero htaps (hlimit ▸ hlen) htwo
    · refine run_odd_ne_zero hodd ?_
      have hcases : ds.count true = 1 ∨ ds.count true = 3 := by omega
      rcases hcases with hone | hthree
      · rw [hone]; decide
      · rw [hthree]; decide

end XmBase.ShiftRegister
