import XmBase.Concurrency.EventCount
import Mathlib.Algebra.Order.Field.Rat
import Mathlib.Algebra.Order.Ring.Cast
import Mathlib.Data.Rat.Cast.Order
/-!
# XmBase.Concurrency.WaitTime

The time arithmetic of `EventCount::WaitUntil` and `WaitFor`
(`include/xmbase/concurrency/event_count.hpp`) over the loop of
`XmBase.Concurrency.EventCount`. `Timestamp` and `Duration` are `Int64` counts of
nanoseconds (`include/xmbase/types/time.hpp`) and wrap; what the caller asked for is
a rational number of nanoseconds.

The loop never sees the deadline itself, only `deadline_at - Now()`. Where that
difference is in range it is the time that is left, and this survives a sum in
`WaitFor` that has wrapped: the subtraction wraps back (`remaining_eq`). Two things go
wrong. A deadline more than `2 ^ 63` nanoseconds ago leaves a positive difference, so
the loop parks long after it. And `duration_cast` multiplies before it divides: a
`max_park` whose product overflows is cut to a shorter wait, `hours::max()` to none.
-/

namespace XmBase.Concurrency.EventCount

/-! ### Durations

`duration_cast` of a `max_park` with an integer `Rep`. It computes in one 64-bit type and
multiplies before it divides, so what it gives is exact under one condition (`Converts`),
and without it always less than what was asked for (`durationCast_lt`). Both directions are
needed below: the first for the bound, the second to show that nothing weaker would do. -/

/-- `count()` in the type `duration_cast` computes in, which is
`common_type<int64_t, Rep, intmax_t>`: `uint64_t` where `Rep` is, and `int64_t` for
every other integer `Rep`. -/
inductive Count
  | signed (count : Int64)
  | unsigned (count : UInt64)
  deriving DecidableEq, Repr

def Count.toInt : Count → Int
  | .signed count => count.toInt
  | .unsigned count => count.toNat

/-- A `std::chrono::duration<Rep, Period>`. `num / den` is `Period` over the period of
nanoseconds in lowest terms, the `CF` of `duration_cast`. The last three fields are what
`std::ratio` guarantees of it. -/
structure ChronoDuration where
  count : Count
  num : Int64
  den : Int64
  num_pos : 0 < num.toInt
  den_pos : 0 < den.toInt
  reduced : num.toInt.gcd den.toInt = 1

namespace ChronoDuration

variable (d : ChronoDuration)

/-- The product that `duration_cast` divides by `den`, without overflow. -/
def product : Int := d.count.toInt * d.num.toInt

/-- The duration in nanoseconds. -/
def nanoseconds : ℚ := d.product / d.den.toInt

/-- `duration_cast<Duration>(d).count()`. -/
def durationCast : Int64 :=
  match d.count with
  | .signed count => count * d.num / d.den
  | .unsigned count => (count * d.num.toUInt64 / d.den.toUInt64).toInt64

/-- The duration is a whole number of nanoseconds, and neither the product nor the quotient
leaves the type it is computed in. An unsigned quotient has to fit the signed result as
well. -/
def Converts : Prop :=
  d.den.toInt ∣ d.product ∧
    match d.count with
    | .signed _ => -2 ^ 63 ≤ d.product ∧ d.product < 2 ^ 63
    | .unsigned _ => d.product < 2 ^ 64 ∧ d.product < 2 ^ 63 * d.den.toInt

instance : Decidable d.Converts := by
  unfold Converts
  cases d.count <;> infer_instance

variable {d}

theorem nanoseconds_eq {k : Int} (hk : d.product = d.den.toInt * k) : d.nanoseconds = k := by
  have hden : (d.den.toInt : ℚ) ≠ 0 := by
    exact_mod_cast d.den_pos.ne'
  rw [nanoseconds, hk, Int.cast_mul, mul_div_cancel_left₀ _ hden]

theorem lt_nanoseconds {k : Int} (hk : k * d.den.toInt < d.product) : (k : ℚ) < d.nanoseconds := by
  have hden : (0 : ℚ) < d.den.toInt := by
    exact_mod_cast d.den_pos
  rw [nanoseconds, lt_div_iff₀ hden]
  exact_mod_cast hk

/-- The division rounds towards zero. -/
theorem tdiv_mul_lt {x m n : Int} (hn : 0 < n) (hx : x < m) (hm : 0 < m) : x.tdiv n * n < m := by
  rcases Int.le_total 0 x with h0 | h0
  · rw [Int.tdiv_eq_ediv_of_nonneg h0]
    exact (Int.ediv_mul_le x hn.ne').trans_lt hx
  · have hneg : 0 ≤ (-x).tdiv n := Int.tdiv_nonneg (Int.neg_nonneg_of_nonpos h0) hn.le
    rw [Int.neg_tdiv] at hneg
    exact (mul_nonpos_of_nonpos_of_nonneg (Int.nonpos_of_neg_nonneg hneg) hn.le).trans_lt hm

theorem durationCast_signed {count : Int64} (hcount : d.count = .signed count) :
    d.durationCast.toInt = (d.product.bmod (2 ^ 64)).tdiv d.den.toInt := by
  have hden : d.den ≠ -1 := by
    intro h
    have hpos := d.den_pos
    rw [h] at hpos
    exact absurd hpos (by decide)
  simp only [durationCast, product, hcount, Count.toInt]
  rw [Int64.toInt_div_of_ne_right _ _ hden, Int64.toInt_mul]

theorem durationCast_unsigned {count : UInt64} (hcount : d.count = .unsigned count) :
    d.durationCast.toInt = (d.product % 2 ^ 64 / d.den.toInt).bmod (2 ^ 64) := by
  have htoNat : ∀ {x : Int64}, 0 < x.toInt → (x.toUInt64.toNat : Int) = x.toInt := by
    intro x hx
    rw [Int64.toNat_toUInt64_of_le (Int64.le_iff_toInt_le.mpr hx.le)]
    exact Int.toNat_of_nonneg hx.le
  simp only [durationCast, product, hcount, Count.toInt]
  rw [← Int64.toInt_toBitVec, UInt64.toBitVec_toInt64, BitVec.toInt_eq_toNat_bmod,
    UInt64.toNat_toBitVec, UInt64.toNat_div, UInt64.toNat_mul, ← htoNat d.num_pos,
    ← htoNat d.den_pos]
  push_cast
  rfl

/-- A duration that converts is converted exactly. Nothing wraps on the way, and the
division has no rest. -/
theorem Converts.durationCast_eq (h : d.Converts) : (d.durationCast.toInt : ℚ) = d.nanoseconds := by
  obtain ⟨⟨k, hk⟩, hrange⟩ := h
  have hden := d.den_pos
  rw [nanoseconds_eq hk]
  congr 1
  cases hcount : d.count with
  | signed count =>
      rw [hcount] at hrange
      rw [durationCast_signed hcount, Int.bmod_eq_of_le hrange.1 hrange.2, hk,
        Int.mul_tdiv_cancel_left _ hden.ne']
  | unsigned count =>
      rw [hcount] at hrange
      have hnonneg : 0 ≤ d.product := by
        rw [product, hcount]
        exact mul_nonneg (Int.natCast_nonneg _) d.num_pos.le
      have hk0 : 0 ≤ k := nonneg_of_mul_nonneg_right (hk ▸ hnonneg) hden
      have hk1 : k < 2 ^ 63 := by
        have hlt := hrange.2
        rw [hk, mul_comm] at hlt
        exact lt_of_mul_lt_mul_right hlt hden.le
      rw [durationCast_unsigned hcount, Int.emod_eq_of_lt hnonneg hrange.1, hk,
        Int.mul_ediv_cancel_left _ hden.ne', Int.bmod_eq_of_le (by omega) hk1]

theorem bmod_lt_half (x : Int) : x.bmod (2 ^ 64) < 2 ^ 63 := Int.bmod_lt (by decide)

theorem bmod_le_self {x : Int} (hx : 0 ≤ x) : x.bmod (2 ^ 64) ≤ x := by
  rcases lt_or_ge x (2 ^ 63) with hlt | hge
  · exact (Int.bmod_eq_of_le (by omega) hlt).le
  · exact (bmod_lt_half x).le.trans hge

/-- One that does not is cut to a shorter one. -/
theorem durationCast_lt (hcount : 0 ≤ d.count.toInt) (h : ¬ d.Converts) :
    (d.durationCast.toInt : ℚ) < d.nanoseconds := by
  have hden := d.den_pos
  have hnonneg : 0 ≤ d.product := mul_nonneg hcount d.num_pos.le
  -- what is cut by the division alone, where nothing overflows
  have hexact : ¬ d.den.toInt ∣ d.product → d.product / d.den.toInt * d.den.toInt < d.product :=
    fun hdvd => lt_of_le_of_ne (Int.ediv_mul_le _ hden.ne') fun heq => hdvd (Dvd.intro_left _ heq)
  apply lt_nanoseconds
  cases hc : d.count with
  | signed count =>
      rw [durationCast_signed hc]
      rcases lt_or_ge d.product (2 ^ 63) with hlt | hge
      · rw [Int.bmod_eq_of_le (by omega) hlt, Int.tdiv_eq_ediv_of_nonneg hnonneg]
        exact hexact fun hdvd => h ⟨hdvd, by rw [hc]; exact ⟨by omega, hlt⟩⟩
      · exact tdiv_mul_lt hden ((bmod_lt_half _).trans_le hge) (by omega)
  | unsigned count =>
      rw [durationCast_unsigned hc]
      have hquot : 0 ≤ d.product % 2 ^ 64 / d.den.toInt :=
        Int.ediv_nonneg (Int.emod_nonneg _ (by decide)) hden.le
      have hbmod := mul_le_mul_of_nonneg_right (bmod_le_self hquot) hden.le
      rcases lt_or_ge d.product (2 ^ 64) with hlt | hge
      · rw [Int.emod_eq_of_lt hnonneg hlt] at hbmod ⊢
        rcases lt_or_ge d.product (2 ^ 63 * d.den.toInt) with hlt' | hge'
        · exact hbmod.trans_lt (hexact fun hdvd => h ⟨hdvd, by rw [hc]; exact ⟨hlt, hlt'⟩⟩)
        · -- the quotient is taken for a negative number
          have hlarge : 2 ^ 63 ≤ d.product / d.den.toInt := (Int.le_ediv_iff_mul_le hden).mpr hge'
          calc (d.product / d.den.toInt).bmod (2 ^ 64) * d.den.toInt
              < d.product / d.den.toInt * d.den.toInt :=
                mul_lt_mul_of_pos_right ((bmod_lt_half _).trans_le hlarge) hden
            _ ≤ d.product := Int.ediv_mul_le _ hden.ne'
      · calc (d.product % 2 ^ 64 / d.den.toInt).bmod (2 ^ 64) * d.den.toInt
            ≤ d.product % 2 ^ 64 / d.den.toInt * d.den.toInt := hbmod
          _ ≤ d.product % 2 ^ 64 := Int.ediv_mul_le _ hden.ne'
          _ < 2 ^ 64 := Int.emod_lt_of_pos _ (by decide)
          _ ≤ d.product := hge

/-- A duration of no time converts. -/
theorem nanoseconds_pos (hcount : 0 ≤ d.count.toInt) (h : ¬ d.Converts) : 0 < d.nanoseconds := by
  have hnonneg : 0 ≤ d.product := mul_nonneg hcount d.num_pos.le
  have hne : d.product ≠ 0 := by
    intro hzero
    have hden := d.den_pos
    apply h
    rw [Converts, hzero]
    refine ⟨dvd_zero _, ?_⟩
    cases d.count with
    | signed count => exact ⟨by decide, by decide⟩
    | unsigned count => exact ⟨by decide, mul_pos (by decide) hden⟩
  have hpos := lt_nanoseconds (k := 0) (d := d) (by omega)
  exact_mod_cast hpos

end ChronoDuration

/-! ### The two waits

What a call asks for, twice: `deadlineAt` is the 64-bit count the loop works with, and `due`
the rational moment the caller named. They differ where something wrapped or was cut, and
the rest of the module is about when that can be told from outside. -/

inductive Verb
  /-- `WaitUntil(deadline_at, predicate)`. -/
  | waitUntil (deadlineAt : Int64)
  /-- `WaitFor(max_park, predicate)`. -/
  | waitFor (maxPark : ChronoDuration)

/-- The `deadline_at` of the loop, for a call made when the clock reads `now`. -/
def Verb.deadlineAt (now : Int64) : Verb → Int64
  | .waitUntil deadlineAt => deadlineAt
  | .waitFor maxPark => now + maxPark.durationCast

/-- The moment the caller named. -/
def Verb.due (now : Int64) : Verb → ℚ
  | .waitUntil deadlineAt => deadlineAt.toInt
  | .waitFor maxPark => now.toInt + maxPark.nanoseconds

/-- A call in progress, and what the clock read when it was made. -/
structure Call where
  verb : Verb
  calledAt : Int64

def Call.deadlineAt (c : Call) : Int64 := c.verb.deadlineAt c.calledAt

def Call.due (c : Call) : ℚ := c.verb.due c.calledAt

structure Timespec where
  tvSec : Int64
  tvNsec : Int64
  deriving DecidableEq, Repr

/-- The relative timeout `WaitOn(expected, remaining)` hands to `FUTEX_WAIT`. -/
def waitOn (remaining : Int64) : Timespec :=
  ⟨remaining / 1000000000, remaining % 1000000000⟩

/-- The timespec is normalised and denotes `ns` nanoseconds. -/
structure Timespec.Denotes (ts : Timespec) (ns : ℚ) : Prop where
  sec_nonneg : 0 ≤ ts.tvSec
  nsec_nonneg : 0 ≤ ts.tvNsec
  nsec_lt : ts.tvNsec < 1000000000
  value : (ts.tvSec.toInt * 1000000000 + ts.tvNsec.toInt : ℚ) = ns

/-! ### The threads and the clock

The loop of `XmBase.Concurrency.EventCount`, with a clock that only goes forward and with
the `late` of its labels computed from it. Between two accesses any time may pass, so a
reading is old as soon as it is made. -/

/-- `calls` and `checkedAt` are what each waiter's last call was and what the clock read at
its last check. Only the proofs look at `checkedAt`; the code keeps the difference, not the
reading. -/
structure TimedWorld (ι κ : Type) where
  world : World ι κ
  now : Int64
  calls : ι → Call
  checkedAt : ι → Int64

def TimedWorld.init (ι κ : Type) (word : UInt32) (ready : Bool) (now : Int64) : TimedWorld ι κ :=
  ⟨World.init ι κ word ready, now, fun _ => ⟨.waitUntil 0, now⟩, fun _ => now⟩

inductive TimedLabel (ι κ : Type)
  /-- Time passes. -/
  | tick (now : Int64)
  | callWait (i : ι) (verb : Verb)
  | waiter (i : ι)
  | unblock (i : ι)
  | callNotify (j : κ)
  | notifier (j : κ)

section

variable {ι κ : Type} [DecidableEq ι] [DecidableEq κ]

/-- When a waiter that was last at its check at `last` was last there after a step
at `now`. -/
def Waiter.lastCheck (now last : Int64) : Waiter → Int64
  | .deadline .. => now
  | _ => last

/-- `deadline_at - Now()`. -/
def TimedWorld.remaining (w : TimedWorld ι κ) (i : ι) : Int64 :=
  (w.calls i).deadlineAt - w.now

/-- The loop of `EventCount`, with its calls and its clock readings filled in. -/
def TimedWorld.step (w : TimedWorld ι κ) : TimedLabel ι κ → Option (TimedWorld ι κ)
  | .tick now => if w.now ≤ now then some { w with now := now } else none
  | .callWait i verb => do
      let world ← w.world.step (.callWait i)
      some { w with world := world, calls := Function.update w.calls i ⟨verb, w.now⟩ }
  | .waiter i => do
      let world ← w.world.step (.waiter i (w.remaining i ≤ 0))
      some { w with
        world := world
        checkedAt := Function.update w.checkedAt i
          ((w.world.waiters i).lastCheck w.now (w.checkedAt i)) }
  | .unblock i => (w.world.step (.unblock i)).map fun world => { w with world := world }
  | .callNotify j => (w.world.step (.callNotify j)).map fun world => { w with world := world }
  | .notifier j => (w.world.step (.notifier j)).map fun world => { w with world := world }

/-- No wait has timed out early, and none is parked that was over at its check or with
another timeout than the time it had left there. -/
structure TimedWorld.Kept (w : TimedWorld ι κ) : Prop where
  timeout : ∀ i, w.world.waiters i = .returned false → (w.calls i).due ≤ w.now.toInt
  park : ∀ i gen stamp, w.world.waiters i = .futexWait gen stamp →
    (w.checkedAt i).toInt < (w.calls i).due ∧
      (waitOn ((w.calls i).deadlineAt - w.checkedAt i)).Denotes
        ((w.calls i).due - (w.checkedAt i).toInt)

def Verb.Fits : Verb → Prop
  | .waitUntil _ => True
  | .waitFor maxPark => maxPark.Converts

/-- A `max_park` converts, and a wait that is checked is at most `2 ^ 63` nanoseconds
over. -/
def InRange (w : TimedWorld ι κ) : TimedLabel ι κ → Prop
  | .callWait _ verb => verb.Fits
  | .waiter i => ∀ gen stamp, w.world.waiters i = .deadline gen stamp →
      (w.now.toInt - 2 ^ 63 : ℚ) ≤ (w.calls i).due
  | _ => True

end

/-! ### The time that is left

`deadline_at - Now()` as an `Int64` against the difference of the two moments. The call is
due at a moment that `deadline_at` is up to a multiple of `2 ^ 64`, and the subtraction is
exact up to such a multiple too; so in range the two agree, whatever has wrapped on the way. -/

/-- The difference of two readings is a normalised timespec. -/
theorem waitOn_denotes {remaining : Int64} (h : 0 < remaining.toInt) :
    (waitOn remaining).Denotes remaining.toInt := by
  have hsec : (waitOn remaining).tvSec.toInt = remaining.toInt / 1000000000 := by
    rw [waitOn, Int64.toInt_div_of_ne_right _ _ (by decide), Int.tdiv_eq_ediv_of_nonneg h.le]
    rfl
  have hnsec : (waitOn remaining).tvNsec.toInt = remaining.toInt % 1000000000 := by
    rw [waitOn, Int64.toInt_mod, Int.tmod_eq_emod_of_nonneg h.le]
    rfl
  constructor
  · rw [Int64.le_iff_toInt_le, hsec]
    exact Int.ediv_nonneg h.le (by decide)
  · rw [Int64.le_iff_toInt_le, hnsec]
    exact Int.emod_nonneg _ (by decide)
  · rw [Int64.lt_iff_toInt_lt, hnsec]
    exact Int.emod_lt_of_pos _ (by decide)
  · rw [hsec, hnsec]
    exact_mod_cast Int.ediv_mul_add_emod remaining.toInt 1000000000

/-- A call is due at a moment `m` that `deadline_at` is up to a multiple of `2 ^ 64`. -/
theorem Call.exists_due {c : Call} (hfits : c.verb.Fits) (hcalled : 0 ≤ c.calledAt.toInt) :
    ∃ m : Int, c.due = m ∧ c.deadlineAt.toInt = m.bmod (2 ^ 64) ∧ -2 ^ 63 ≤ m ∧
      m < c.calledAt.toInt + 2 ^ 63 := by
  obtain ⟨verb, calledAt⟩ := c
  replace hcalled : 0 ≤ calledAt.toInt := hcalled
  cases verb with
  | waitUntil deadlineAt =>
      have hlt : deadlineAt.toInt < calledAt.toInt + 2 ^ 63 := by
        have := deadlineAt.toInt_lt
        omega
      exact ⟨deadlineAt.toInt, rfl, (Int64.toInt_bmod _).symm, deadlineAt.le_toInt, hlt⟩
  | waitFor maxPark =>
      have hle := maxPark.durationCast.le_toInt
      refine ⟨calledAt.toInt + maxPark.durationCast.toInt, ?_, Int64.toInt_add _ _, by omega,
        Int.add_lt_add_left maxPark.durationCast.toInt_lt _⟩
      push_cast
      rw [ChronoDuration.Converts.durationCast_eq hfits]
      rfl

/-- At a check that is in range, `deadline_at - Now()` is the time that is left, also
where `Now() + max_park` has wrapped. -/
theorem Call.remaining_eq {c : Call} {now : Int64} (hfits : c.verb.Fits)
    (hcalled : 0 ≤ c.calledAt.toInt) (hpast : c.calledAt.toInt ≤ now.toInt)
    (hrange : (now.toInt - 2 ^ 63 : ℚ) ≤ c.due) :
    ((c.deadlineAt - now).toInt : ℚ) = c.due - now.toInt := by
  obtain ⟨m, hdue, hdeadline, -, hlt⟩ := Call.exists_due hfits hcalled
  rw [hdue] at hrange ⊢
  have hle : now.toInt - 2 ^ 63 ≤ m := by exact_mod_cast hrange
  rw [Int64.toInt_sub, hdeadline, Int.bmod_sub_bmod, Int.bmod_eq_of_le (by omega) (by omega)]
  push_cast
  rfl

/-- At one that is not, the difference has wrapped to a positive one. -/
theorem Call.remaining_pos {c : Call} {now : Int64} (hfits : c.verb.Fits)
    (hcalled : 0 ≤ c.calledAt.toInt) (hrange : c.due < (now.toInt - 2 ^ 63 : ℚ)) :
    ¬ c.deadlineAt - now ≤ 0 := by
  obtain ⟨m, hdue, hdeadline, hle, -⟩ := Call.exists_due hfits hcalled
  rw [hdue] at hrange
  have hlt : m < now.toInt - 2 ^ 63 := by exact_mod_cast hrange
  have hnow := now.toInt_lt
  have hwrap : (c.deadlineAt - now).toInt = m - now.toInt + 2 ^ 64 := by
    rw [Int64.toInt_sub, hdeadline, Int.bmod_sub_bmod, ← Int.add_bmod_right]
    exact Int.bmod_eq_of_le (by omega) (by omega)
  rw [Int64.le_iff_toInt_le, hwrap, Int64.toInt_zero]
  omega

/-! ### The invariant

`Kept` is about waiters that have returned or are about to park. A waiter gets there through
its check, so the invariant carries what the check established along the two program
counters in between (`Timely`), and the moment of the call is never later than now. -/

/-- What a waiter that has given up, or is about to park, knows of the time. -/
def Timely (now : Int64) (c : Call) (checkedAt : Int64) : Waiter → Prop
  | .final | .returned false => c.due ≤ now.toInt
  | .futexWait .. => checkedAt.toInt < c.due ∧
      (waitOn (c.deadlineAt - checkedAt)).Denotes (c.due - checkedAt.toInt)
  | _ => True

section

variable {ι κ : Type} {w w' : TimedWorld ι κ}

/-- Every call's duration converts, every call was made at a moment that is over, and every
waiter knows what its check established. -/
structure TimedWorld.Inv (w : TimedWorld ι κ) : Prop where
  fits : ∀ i, (w.calls i).verb.Fits
  called : ∀ i, 0 ≤ (w.calls i).calledAt.toInt
  past : ∀ i, (w.calls i).calledAt.toInt ≤ w.now.toInt
  timely : ∀ i, Timely w.now (w.calls i) (w.checkedAt i) (w.world.waiters i)

theorem TimedWorld.Inv.init (word : UInt32) (ready : Bool) {now : Int64} (hnow : 0 ≤ now.toInt) :
    (TimedWorld.init ι κ word ready now).Inv where
  fits _ := trivial
  called _ := hnow
  past _ := Int.le_refl _
  timely _ := trivial

theorem TimedWorld.Inv.kept (hw : w.Inv) : w.Kept where
  timeout i hi := by
    have htimely := hw.timely i
    rw [hi] at htimely
    exact htimely
  park i gen stamp hi := by
    have htimely := hw.timely i
    rw [hi] at htimely
    exact htimely

/-- Time passes. A moment that is over stays over, and what was left at a check is about
that check. -/
theorem Timely.mono {now now' checkedAt : Int64} {c : Call} {pc : Waiter}
    (h : Timely now c checkedAt pc) (hle : now.toInt ≤ now'.toInt) :
    Timely now' c checkedAt pc := by
  have hdue : c.due ≤ now.toInt → c.due ≤ now'.toInt := fun h => h.trans (by exact_mod_cast hle)
  cases pc with
  | final => exact hdue h
  | returned result =>
      cases result with
      | false => exact hdue h
      | true => trivial
  | futexWait gen stamp => exact h
  | idle => trivial
  | load => trivial
  | check gen stamp => trivial
  | deadline gen stamp => trivial
  | blocked => trivial

/-- One step of a waiter, its check included. -/
theorem Timely.next {now checkedAt : Int64} {c : Call} {pc pc' : Waiter} {word : UInt32}
    {ready : Bool} {moves : Nat}
    (h : Timely now c checkedAt pc) (hfits : c.verb.Fits) (hcalled : 0 ≤ c.calledAt.toInt)
    (hpast : c.calledAt.toInt ≤ now.toInt)
    (hrange : ∀ gen stamp, pc = .deadline gen stamp → (now.toInt - 2 ^ 63 : ℚ) ≤ c.due)
    (hnext : pc.next word ready moves (c.deadlineAt - now ≤ 0) = some pc') :
    Timely now c (pc.lastCheck now checkedAt) pc' := by
  cases pc with
  | load =>
      obtain rfl := Option.some.inj hnext
      trivial
  | check gen stamp =>
      obtain rfl := Option.some.inj hnext
      cases ready <;> trivial
  | deadline gen stamp =>
      obtain rfl := Option.some.inj hnext
      have heq := Call.remaining_eq hfits hcalled hpast (hrange gen stamp rfl)
      by_cases hlate : c.deadlineAt - now ≤ 0
      · rw [decide_eq_true hlate]
        have hle : ((c.deadlineAt - now).toInt : ℚ) ≤ 0 := by
          exact_mod_cast Int64.le_iff_toInt_le.mp hlate
        rw [heq] at hle
        exact sub_nonpos.mp hle
      · rw [decide_eq_false hlate]
        have hpos : 0 < (c.deadlineAt - now).toInt := Int64.lt_iff_toInt_lt.mp (Int64.not_le.mp hlate)
        refine ⟨?_, heq ▸ waitOn_denotes hpos⟩
        have hpos' : (0 : ℚ) < (c.deadlineAt - now).toInt := by exact_mod_cast hpos
        rw [heq] at hpos'
        exact sub_pos.mp hpos'
  | futexWait gen stamp =>
      obtain rfl := Option.some.inj hnext
      by_cases heq : word = gen
      · rw [if_pos heq]
        trivial
      · rw [if_neg heq]
        trivial
  | final =>
      obtain rfl := Option.some.inj hnext
      cases ready with
      | true => trivial
      | false => exact h
  | idle => cases hnext
  | blocked => cases hnext
  | returned result => cases hnext

variable [DecidableEq ι] [DecidableEq κ]

/-- Nobody but a waiter itself moves it, except back to the start of the loop. -/
theorem World.step_waiters {w w' : World ι κ} {l : Label ι κ} (h : w.step l = some w')
    (hl : ∀ i late, l ≠ .waiter i late) (k : ι) :
    w'.waiters k = w.waiters k ∨ w'.waiters k = .load := by
  have hupdate : ∀ {i : ι}, Function.update w.waiters i .load k = w.waiters k ∨
      Function.update w.waiters i .load k = .load := by
    intro i
    by_cases hk : k = i
    · subst hk
      exact .inr (Function.update_self ..)
    · exact .inl (Function.update_of_ne hk ..)
  cases l with
  | waiter i late => exact absurd rfl (hl i late)
  | callWait i =>
      simp only [World.step] at h
      split at h
      all_goals first
        | cases h; exact hupdate
        | cases h
  | unblock i =>
      simp only [World.step] at h
      split at h
      all_goals first
        | cases h; exact hupdate
        | cases h
  | callNotify j =>
      simp only [World.step] at h
      split at h
      all_goals first
        | cases h; exact .inl rfl
        | cases h
  | notifier j =>
      simp only [World.step] at h
      split at h
      · cases h
        exact .inl rfl
      · cases h
        exact .inl rfl
      · cases h
        show unblockAll w.waiters k = w.waiters k ∨ unblockAll w.waiters k = .load
        cases hk : w.waiters k <;> simp [unblockAll, hk]
      · cases h
      · cases h

theorem World.step_callWait {w w' : World ι κ} {i : ι} (h : w.step (.callWait i) = some w') :
    w' = { w with waiters := Function.update w.waiters i .load } := by
  simp only [World.step] at h
  split at h
  all_goals first
    | exact (Option.some.inj h).symm
    | cases h

/-- A step of the loop that is no waiter's own keeps the invariant. -/
theorem TimedWorld.Inv.frame {world : World ι κ} {l : Label ι κ} (hw : w.Inv)
    (h : w.world.step l = some world) (hl : ∀ i late, l ≠ .waiter i late) :
    ({ w with world := world } : TimedWorld ι κ).Inv where
  fits := hw.fits
  called := hw.called
  past := hw.past
  timely k := by
    show Timely w.now (w.calls k) (w.checkedAt k) (world.waiters k)
    rcases World.step_waiters h hl k with hk | hk
    · rw [hk]
      exact hw.timely k
    · rw [hk]
      trivial

/-- The step lemma. -/
theorem TimedWorld.Inv.step {l : TimedLabel ι κ} (hrange : InRange w l) (hw : w.Inv)
    (h : w.step l = some w') : w'.Inv := by
  cases l with
  | tick now =>
      simp only [TimedWorld.step] at h
      split at h
      case isTrue hle =>
          obtain rfl := Option.some.inj h
          have hle' := Int64.le_iff_toInt_le.mp hle
          exact ⟨hw.fits, hw.called, fun i => (hw.past i).trans hle',
            fun i => (hw.timely i).mono hle'⟩
      case isFalse => cases h
  | callWait i verb =>
      simp only [TimedWorld.step, Option.bind_eq_bind, Option.bind_eq_some_iff] at h
      obtain ⟨world, hworld, hw'⟩ := h
      obtain rfl := World.step_callWait hworld
      obtain rfl := Option.some.inj hw'
      have hnow : 0 ≤ w.now.toInt := (hw.called i).trans (hw.past i)
      refine ⟨?_, ?_, ?_, ?_⟩
      all_goals
        intro k
        by_cases hk : k = i
      · subst hk
        simpa only [Function.update_self, InRange] using hrange
      · simpa only [Function.update_of_ne hk] using hw.fits k
      · subst hk
        simpa only [Function.update_self] using hnow
      · simpa only [Function.update_of_ne hk] using hw.called k
      · subst hk
        simp only [Function.update_self]
        exact Int.le_refl _
      · simpa only [Function.update_of_ne hk] using hw.past k
      · subst hk
        simp only [Function.update_self]
        trivial
      · simpa only [Function.update_of_ne hk] using hw.timely k
  | waiter i =>
      simp only [TimedWorld.step, Option.bind_eq_bind, Option.bind_eq_some_iff] at h
      obtain ⟨world, hworld, hw'⟩ := h
      obtain rfl := Option.some.inj hw'
      simp only [World.step, Option.bind_eq_bind, Option.bind_eq_some_iff] at hworld
      obtain ⟨pc, hpc, hworld⟩ := hworld
      obtain rfl := Option.some.inj hworld
      refine ⟨hw.fits, hw.called, hw.past, fun k => ?_⟩
      by_cases hk : k = i
      · subst hk
        simp only [Function.update_self]
        exact (hw.timely k).next (hw.fits k) (hw.called k) (hw.past k) hrange hpc
      · simpa only [Function.update_of_ne hk] using hw.timely k
  | unblock i =>
      obtain ⟨world, hworld, rfl⟩ := Option.map_eq_some_iff.mp h
      exact hw.frame hworld (fun _ _ => by simp)
  | callNotify j =>
      obtain ⟨world, hworld, rfl⟩ := Option.map_eq_some_iff.mp h
      exact hw.frame hworld (fun _ _ => by simp)
  | notifier j =>
      obtain ⟨world, hworld, rfl⟩ := Option.map_eq_some_iff.mp h
      exact hw.frame hworld (fun _ _ => by simp)

/-! ### Where it goes wrong

The other directions. From any reachable state, a check that is out of range, or a call
whose duration does not convert, leads by a few steps to a state that is not `Kept`: a wait
that is over parks, or one that is not over ends. -/

/-- What a step of a waiter leaves. -/
theorem TimedWorld.exists_step {i : ι} {p : Waiter}
    (hpc : (w.world.waiters i).next w.world.word w.world.ready w.world.moves
      (w.remaining i ≤ 0) = some p) :
    ∃ w' : TimedWorld ι κ, w.step (.waiter i) = some w' ∧ w'.world.waiters i = p ∧
      w'.world.ready = w.world.ready ∧ w'.calls = w.calls ∧ w'.now = w.now ∧
      w'.checkedAt i = (w.world.waiters i).lastCheck w.now (w.checkedAt i) := by
  simp only [TimedWorld.step, World.step, hpc, Option.bind_eq_bind, Option.bind_some]
  exact ⟨_, rfl, Function.update_self .., rfl, rfl, rfl, Function.update_self ..⟩

/-- A check that is out of range parks a wait that is over. -/
theorem TimedWorld.Inv.not_kept_of_check {i : ι} (hw : w.Inv) (h : w.step (.waiter i) = some w')
    (hrange : ¬ InRange w (.waiter i)) : ¬ w'.Kept := by
  simp only [InRange, not_forall, not_le] at hrange
  obtain ⟨gen, stamp, hpc, hdue⟩ := hrange
  have hlate : ¬ w.remaining i ≤ 0 := Call.remaining_pos (hw.fits i) (hw.called i) hdue
  have hnext : (w.world.waiters i).next w.world.word w.world.ready w.world.moves
      (w.remaining i ≤ 0) = some (.futexWait gen stamp) := by
    rw [hpc, decide_eq_false hlate]
    rfl
  obtain ⟨w'', hstep, hpc', -, hcalls, -, hchecked⟩ := TimedWorld.exists_step hnext
  obtain rfl : w'' = w' := Option.some.inj (hstep.symm.trans h)
  intro hkept
  have hlt := (hkept.park i gen stamp hpc').1
  rw [hcalls, hchecked, hpc] at hlt
  have hpow : (0 : ℚ) ≤ 2 ^ 63 := pow_nonneg zero_le_two 63
  exact absurd (hlt.trans hdue) (not_lt.mpr (sub_le_self _ hpow))

/-- What a call leaves. -/
theorem TimedWorld.step_callWait {i : ι} {verb : Verb} (h : w.step (.callWait i verb) = some w') :
    w'.world.waiters i = .load ∧ w'.world.ready = w.world.ready ∧
      w'.calls i = ⟨verb, w'.now⟩ := by
  simp only [TimedWorld.step, Option.bind_eq_bind, Option.bind_eq_some_iff] at h
  obtain ⟨world, hworld, hw'⟩ := h
  obtain rfl := World.step_callWait hworld
  obtain rfl := Option.some.inj hw'
  exact ⟨Function.update_self .., rfl, Function.update_self ..⟩

omit [DecidableEq ι] [DecidableEq κ] in
/-- The first check of a call of `WaitFor` has all of the converted duration left. -/
theorem TimedWorld.remaining_waitFor {i : ι} {maxPark : ChronoDuration}
    (hcall : w.calls i = ⟨.waitFor maxPark, w.now⟩) : w.remaining i = maxPark.durationCast := by
  rw [TimedWorld.remaining, hcall, Call.deadlineAt, Verb.deadlineAt, Int64.add_comm]
  exact Int64.add_sub_cancel _ _

/-- A `max_park` that does not convert: the first check of the call gives up, or parks
for another time than was left. -/
theorem TimedWorld.not_kept_of_waitFor {i : ι} {maxPark : ChronoDuration}
    (hcount : 0 ≤ maxPark.count.toInt) (hconverts : ¬ maxPark.Converts)
    (hready : w.world.ready = false) (h : w.step (.callWait i (.waitFor maxPark)) = some w') :
    ∃ n w'', Run.exec TimedWorld.step w' (List.replicate n (.waiter i)) = some w'' ∧
      ¬ w''.Kept := by
  obtain ⟨hpc₀, hready₀, hcall₀⟩ := TimedWorld.step_callWait h
  rw [hready] at hready₀
  obtain ⟨w₁, hs₁, hpc₁, hready₁, hcalls₁, hnow₁, -⟩ :=
    TimedWorld.exists_step (w := w') (i := i) (by rw [hpc₀, Waiter.next])
  rw [hready₀] at hready₁
  obtain ⟨w₂, hs₂, hpc₂, hready₂, hcalls₂, hnow₂, -⟩ :=
    TimedWorld.exists_step (w := w₁) (i := i) (by rw [hpc₁, hready₁, Waiter.next, if_neg nofun])
  rw [hready₁] at hready₂
  have hcall₂ : w₂.calls i = ⟨.waitFor maxPark, w₂.now⟩ := by
    rw [hcalls₂, hcalls₁, hnow₂, hnow₁]
    exact hcall₀
  have hremaining := TimedWorld.remaining_waitFor hcall₂
  by_cases hlate : w₂.remaining i ≤ 0
  · obtain ⟨w₃, hs₃, hpc₃, hready₃, hcalls₃, hnow₃, -⟩ :=
      TimedWorld.exists_step (w := w₂) (i := i) (p := .final)
        (by rw [hpc₂, decide_eq_true hlate]; rfl)
    rw [hready₂] at hready₃
    obtain ⟨w₄, hs₄, hpc₄, -, hcalls₄, hnow₄, -⟩ :=
      TimedWorld.exists_step (w := w₃) (i := i) (p := .returned false)
        (by rw [hpc₃, hready₃]; rfl)
    refine ⟨4, w₄, by simp [Run.exec, hs₁, hs₂, hs₃, hs₄], fun hkept => ?_⟩
    have hdue := hkept.timeout i hpc₄
    rw [hcalls₄, hcalls₃, hcall₂, hnow₄, hnow₃] at hdue
    have hpos := ChronoDuration.nanoseconds_pos hcount hconverts
    exact absurd hdue (not_le.mpr (lt_add_of_pos_right _ hpos))
  · obtain ⟨w₃, hs₃, hpc₃, -, hcalls₃, -, hchecked₃⟩ :=
      TimedWorld.exists_step (w := w₂) (i := i) (p := .futexWait w'.world.word w'.world.moves)
        (by rw [hpc₂, decide_eq_false hlate]; rfl)
    refine ⟨3, w₃, by simp [Run.exec, hs₁, hs₂, hs₃], fun hkept => ?_⟩
    have hpos : 0 < (w₂.remaining i).toInt := Int64.lt_iff_toInt_lt.mp (Int64.not_le.mp hlate)
    have hvalue := (hkept.park i _ _ hpc₃).2.value
    rw [hchecked₃, hcalls₃, hpc₂] at hvalue
    have hcast := (waitOn_denotes hpos).value.symm.trans hvalue
    rw [hremaining, hcall₂] at hcast
    have hlt := ChronoDuration.durationCast_lt hcount hconverts
    refine absurd (hcast.trans ?_) hlt.ne
    exact add_sub_cancel_left _ _

end

/-- **Waits keep their bounds, in range.** In every run whose checks are all in range and
whose durations all convert, a wait times out only when it is due, does not park when it
already is, and parks for exactly the time that is left. Neither condition can be
dropped: a check that is out of range parks a wait that is over, and a duration that
does not convert can end in a wait that times out early or parks for another time. -/
theorem waits_in_time {ι κ : Type} [DecidableEq ι] [DecidableEq κ] {word : UInt32} {ready : Bool}
    {now : Int64} {w : TimedWorld ι κ} {ls : List (TimedLabel ι κ)} (hnow : 0 ≤ now.toInt)
    (h : Run.exec TimedWorld.step (TimedWorld.init ι κ word ready now) ls = some w)
    (hrange : Run.Steps TimedWorld.step InRange (TimedWorld.init ι κ word ready now) ls) :
    w.Kept ∧
      (∀ i w', w.step (.waiter i) = some w' → (w'.Kept ↔ InRange w (.waiter i))) ∧
      ∀ i maxPark w', 0 ≤ maxPark.count.toInt → w.world.ready = false →
        w.step (.callWait i (.waitFor maxPark)) = some w' → ¬ maxPark.Converts →
          ∃ n w'', Run.exec TimedWorld.step w' (List.replicate n (.waiter i)) = some w'' ∧
            ¬ w''.Kept := by
  have hinv : w.Inv := Run.exec_invariant_of_steps (fun hrange hw h => hw.step hrange h) hrange
    (TimedWorld.Inv.init word ready hnow) h
  refine ⟨hinv.kept, ?_, ?_⟩
  · intro i w' hstep
    refine ⟨fun hkept => ?_, fun hin => (hinv.step hin hstep).kept⟩
    by_contra hout
    exact hinv.not_kept_of_check hstep hout hkept
  · intro i maxPark w' hcount hready hstep hconverts
    exact TimedWorld.not_kept_of_waitFor hcount hconverts hready hstep

/-- `std::chrono::milliseconds`. -/
def milliseconds (count : Int64) : ChronoDuration :=
  ⟨.signed count, 1000000, 1, by decide, by decide, by decide⟩

/-- `std::chrono::hours`. -/
def hours (count : Int64) : ChronoDuration :=
  ⟨.signed count, 3600000000000, 1, by decide, by decide, by decide⟩

instance {ι κ : Type} (w : TimedWorld ι κ) : (l : TimedLabel ι κ) → Decidable (InRange w l)
  | .callWait _ (.waitFor maxPark) => inferInstanceAs (Decidable maxPark.Converts)
  | .waiter i =>
      match h : w.world.waiters i with
      | .deadline .. =>
          decidable_of_iff ((w.now.toInt - 2 ^ 63 : ℚ) ≤ (w.calls i).due) (by simp [InRange, h])
      | .idle | .load | .check .. | .futexWait .. | .blocked | .final | .returned _ =>
          .isTrue (by simp [InRange, h])
  | .callWait _ (.waitUntil _) | .tick _ | .unblock _ | .callNotify _ | .notifier _ =>
      .isTrue trivial

/-- A wait for 50 ms that nobody ends times out after 50 ms. -/
theorem waits_in_time_fifty_milliseconds :
    ∃ w : TimedWorld Unit Unit,
      Run.exec TimedWorld.step (TimedWorld.init Unit Unit 0 false 7)
        [.callWait () (.waitFor (milliseconds 50)), .waiter (), .waiter (), .waiter (), .waiter (),
          .tick 50000007, .unblock (), .waiter (), .waiter (), .waiter (), .waiter ()] = some w ∧
      w.world.waiters () = .returned false ∧ w.Kept := by
  have hrun : ∃ w : TimedWorld Unit Unit,
      Run.exec TimedWorld.step (TimedWorld.init Unit Unit 0 false 7)
        [.callWait () (.waitFor (milliseconds 50)), .waiter (), .waiter (), .waiter (), .waiter (),
          .tick 50000007, .unblock (), .waiter (), .waiter (), .waiter (), .waiter ()] = some w ∧
      w.world.waiters () = .returned false := Run.exists_exec (by decide +kernel)
  obtain ⟨w, h, hreturned⟩ := hrun
  exact ⟨w, h, hreturned, (waits_in_time (by decide) h (by decide +kernel)).1⟩

/-- `WaitUntil(Timestamp::min())` at 1 ns parks. `WaitFor(hours::max())` times out at once. -/
theorem waits_out_of_range :
    (∃ w : TimedWorld Unit Unit,
      Run.exec TimedWorld.step (TimedWorld.init Unit Unit 0 false 1)
        [.callWait () (.waitUntil Int64.minValue), .waiter (), .waiter (), .waiter ()] = some w ∧
      w.world.waiters () = .futexWait 0 0 ∧ (w.calls ()).due ≤ (w.checkedAt ()).toInt ∧
      ¬ w.Kept) ∧
    ∃ w : TimedWorld Unit Unit,
      Run.exec TimedWorld.step (TimedWorld.init Unit Unit 0 false 0)
        [.callWait () (.waitFor (hours Int64.maxValue)), .waiter (), .waiter (), .waiter (),
          .waiter ()] = some w ∧
      w.world.waiters () = .returned false ∧ w.now.toInt < (w.calls ()).due ∧ ¬ w.Kept := by
  constructor
  · have hrun : ∃ w : TimedWorld Unit Unit,
        Run.exec TimedWorld.step (TimedWorld.init Unit Unit 0 false 1)
          [.callWait () (.waitUntil Int64.minValue), .waiter (), .waiter (), .waiter ()] = some w ∧
        (w.world.waiters () = .futexWait 0 0 ∧ (w.calls ()).due ≤ (w.checkedAt ()).toInt) :=
      Run.exists_exec (by decide +kernel)
    obtain ⟨w, h, hpc, hdue⟩ := hrun
    exact ⟨w, h, hpc, hdue, fun hkept => absurd (hkept.park () 0 0 hpc).1 (not_lt.mpr hdue)⟩
  · have hrun : ∃ w : TimedWorld Unit Unit,
        Run.exec TimedWorld.step (TimedWorld.init Unit Unit 0 false 0)
          [.callWait () (.waitFor (hours Int64.maxValue)), .waiter (), .waiter (), .waiter (),
            .waiter ()] = some w ∧
        (w.world.waiters () = .returned false ∧ w.now.toInt < (w.calls ()).due) :=
      Run.exists_exec (by decide +kernel)
    obtain ⟨w, h, hpc, hdue⟩ := hrun
    exact ⟨w, h, hpc, hdue, fun hkept => absurd (hkept.timeout () hpc) (not_le.mpr hdue)⟩

end XmBase.Concurrency.EventCount
