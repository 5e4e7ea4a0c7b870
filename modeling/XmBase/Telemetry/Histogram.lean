import Mathlib.Data.Int.Log
import Mathlib.Data.Rat.Floor
/-!
# XmBase.Telemetry.Histogram

The buckets of `HistogramSlot` (`telemetry/binding.hpp`): `HistogramBucketOf` and
`HistogramBucketUpperBound`, over doubles that are NaN, an infinity or an exact
rational, with the `int` arithmetic on the exponent checked.

**Every sample but `+∞` lands in the bucket its bounds describe**
(`histogramBucketOf_placed_iff`). At `+∞` the exponent is `INT_MAX`, and `e + 1`
overflows.
-/

namespace XmBase.Telemetry

/-- A finite double, by its value. -/
structure FiniteDouble where
  val : ℚ
  abs_lt : |val| < 2 ^ 1024

inductive Double
  | nan
  | inf (negative : Bool)
  | finite (d : FiniteDouble)

namespace Double

/-- `a < b`: false of a NaN. -/
def lt : Double → Double → Bool
  | .nan, _ => false
  | _, .nan => false
  | .inf neg, .inf neg' => neg && !neg'
  | .inf neg, .finite _ => neg
  | .finite _, .inf neg => !neg
  | .finite a, .finite b => a.val < b.val

/-- `a >= b`: false of a NaN. -/
def ge : Double → Double → Bool
  | .nan, _ => false
  | _, .nan => false
  | .inf neg, .inf neg' => !neg || neg'
  | .inf neg, .finite _ => !neg
  | .finite _, .inf neg => neg
  | .finite a, .finite b => b.val ≤ a.val

/-- `static_cast<double>(n)`. -/
def ofUInt32 (n : UInt32) : Double :=
  .finite ⟨n.toNat, by
    have hlt : (n.toNat : ℚ) < 2 ^ 32 := by exact_mod_cast n.toNat_lt
    rw [abs_of_nonneg (Nat.cast_nonneg _)]
    exact hlt.trans (pow_lt_pow_right₀ (by norm_num) (by norm_num))⟩

/-- The power of two `2 ^ k`, as far as doubles go. -/
def pow2 (k : Nat) : Double :=
  if h : k < 1024 then
    .finite ⟨2 ^ k, by
      rw [abs_of_nonneg (by positivity)]
      exact pow_lt_pow_right₀ (by norm_num) h⟩
  else .inf false

end Double

/-! ### The code -/

def kHistogramBuckets : Nat := 24

/-- `a + b` on `int`: there is no result when it overflows. -/
def addInt (a b : Int) : Option Int :=
  if -2 ^ 31 ≤ a + b ∧ a + b < 2 ^ 31 then some (a + b) else none

/-- `static_cast<std::size_t>` of an `int`. -/
def sizeOfInt (a : Int) : Nat := (a % 2 ^ 64).toNat

section

variable (ilogb : Double → Int)

/-- `HistogramBucketOf`. -/
def histogramBucketOf (v : Double) : Option Nat :=
  if !v.ge (.ofUInt32 1) then some 0
  else do
    let e := ilogb v
    let next ← addInt e 1
    if next ≥ 23 then some 23
    else
      let next ← addInt e 1
      some (sizeOfInt next)

/-- `HistogramBucketUpperBound`. -/
def histogramBucketUpperBound (i : Nat) : Double :=
  if i ≥ 23 then .inf false else .ofUInt32 (1 <<< i.toUInt32)

/-- What the code relies on of `std::ilogb`, with `INT_MAX` of a 32-bit `int`. -/
structure ExponentOf : Prop where
  finite : ∀ d : FiniteDouble, 1 ≤ d.val → ilogb (.finite d) = Int.log 2 d.val
  inf : ilogb (.inf false) = 2 ^ 31 - 1

/-- The sample has a bucket, and it is the one whose bounds hold it. NaN is in bucket 0 and
on neither side of any bound. The clauses are those of the comments at the two functions. -/
def Placed (v : Double) : Prop :=
  ∃ i, histogramBucketOf ilogb v = some i ∧ i < kHistogramBuckets ∧
    (i = 0 ↔ v = .nan ∨ v.lt (.pow2 0)) ∧
    (∀ k, 1 ≤ k → k ≤ 22 → (i = k ↔ v.ge (.pow2 (k - 1)) ∧ v.lt (.pow2 k))) ∧
    (i = 23 ↔ v.ge (.pow2 22)) ∧
    (i ≤ 22 → v ≠ .nan → v.lt (histogramBucketUpperBound i)) ∧
    (1 ≤ i → v.ge (histogramBucketUpperBound (i - 1)))

end

/-! ### The powers of two below a sample

The bridge between the exponent and the bounds: how many powers of two are not above the
sample. Every double but NaN has such a number, and the bucket is that number, cut off at
23. A NaN fails the code's first comparison and is in bucket 0. -/

/-- There are `n` powers of two up to `v`. -/
def Level (v : Double) (n : Nat) : Prop :=
  ∀ k < 1024, (v.ge (.pow2 k) = true ↔ k < n) ∧ (v.lt (.pow2 k) = true ↔ n ≤ k)

section

variable {v : Double} {n : Nat}

theorem level_neg_inf : Level (.inf true) 0 := by
  intro k hk
  simp [Double.pow2, hk, Double.ge, Double.lt]

theorem level_of_lt_one {d : FiniteDouble} (h : d.val < 1) : Level (.finite d) 0 := by
  intro k hk
  have hlt : d.val < 2 ^ k := h.trans_le (one_le_pow₀ (by norm_num))
  simp [Double.pow2, hk, Double.ge, Double.lt, hlt]

/-- From one on, the exponent counts them. -/
theorem level_log {d : FiniteDouble} (h : 1 ≤ d.val) :
    Level (.finite d) (Nat.log 2 ⌊d.val⌋₊ + 1) := by
  have hfloor : ⌊d.val⌋₊ ≠ 0 := by
    rw [Ne, Nat.floor_eq_zero, not_lt]
    exact h
  have hle : ∀ k : Nat, (2 : ℚ) ^ k ≤ d.val ↔ k ≤ Nat.log 2 ⌊d.val⌋₊ := by
    intro k
    rw [Nat.le_log_iff_pow_le (by decide) hfloor, Nat.le_floor_iff (by linarith)]
    push_cast
    rfl
  intro k hk
  have hlt : d.val < 2 ^ k ↔ Nat.log 2 ⌊d.val⌋₊ + 1 ≤ k := by
    rw [← not_le, hle, not_le, Nat.lt_iff_add_one_le]
  have hge : (Double.finite d).ge (.pow2 k) = true ↔ k ≤ Nat.log 2 ⌊d.val⌋₊ := by
    simp [Double.pow2, hk, Double.ge, hle]
  exact ⟨hge.trans Nat.lt_add_one_iff.symm, by simp [Double.pow2, hk, Double.lt, hlt]⟩

theorem log_floor_lt {q : ℚ} {k : Nat} (h : 1 ≤ q) (hlt : q < 2 ^ k) : Nat.log 2 ⌊q⌋₊ < k := by
  have hfloor : ⌊q⌋₊ < 2 ^ k := by
    rw [Nat.floor_lt (by linarith), Nat.cast_pow, Nat.cast_ofNat]
    exact hlt
  refine Nat.log_lt_of_lt_pow ?_ hfloor
  rw [Ne, Nat.floor_eq_zero, not_lt]
  exact h

/-- The levels of a finite double end long before those of an `int`. -/
theorem log_lt {d : FiniteDouble} (h : 1 ≤ d.val) : Nat.log 2 ⌊d.val⌋₊ < 1024 :=
  log_floor_lt h ((le_abs_self d.val).trans_lt d.abs_lt)

theorem addInt_of_lt {e : Nat} (h : e < 1024) : addInt e 1 = some ((e + 1 : Nat) : Int) := by
  rw [addInt, if_pos (by omega)]
  rfl

/-- **The bucket of a sample is its level, up to the last bucket.** -/
theorem histogramBucketOf_level {ilogb : Double → Int} (hi : ExponentOf ilogb) (hv : v ≠ .nan)
    (hinf : v ≠ .inf false) :
    ∃ n, Level v n ∧ histogramBucketOf ilogb v = some (min 23 n) := by
  have hone : Double.ofUInt32 1 = .pow2 0 := by
    rw [Double.ofUInt32, Double.pow2, dif_pos (by decide)]
    congr
  cases v with
  | nan => exact absurd rfl hv
  | inf neg =>
      cases neg with
      | false => exact absurd rfl hinf
      | true => exact ⟨0, level_neg_inf, by rw [histogramBucketOf]; rfl⟩
  | finite d =>
      by_cases h : 1 ≤ d.val
      · have hlevel := level_log h
        have hlog := log_lt h
        refine ⟨_, hlevel, ?_⟩
        have hge : (Double.finite d).ge (.ofUInt32 1) = true := by
          rw [hone]
          exact (hlevel 0 (by decide)).1.mpr (Nat.succ_pos _)
        rw [histogramBucketOf, hge, hi.finite d h, Int.log_of_one_le_right 2 h]
        simp only [Bool.not_true, Bool.false_eq_true, if_false, addInt_of_lt hlog,
          Option.bind_eq_bind, Option.bind_some]
        split
        · next hbig => rw [min_eq_left (by omega)]
        · next hsmall =>
          rw [min_eq_right (by omega), sizeOfInt]
          congr 1
          omega
      · have hlevel := level_of_lt_one (not_le.mp h)
        refine ⟨0, hlevel, ?_⟩
        have hge : (Double.finite d).ge (.ofUInt32 1) = false := by
          rw [hone, ← Bool.not_eq_true, (hlevel 0 (by decide)).1]
          exact lt_irrefl 0
        rw [histogramBucketOf, hge]
        rfl

theorem histogramBucketUpperBound_eq {i : Nat} (h : i ≤ 22) :
    histogramBucketUpperBound i = .pow2 i := by
  rw [histogramBucketUpperBound, if_neg (by omega), Double.ofUInt32, Double.pow2,
    dif_pos (by omega)]
  congr
  have hshift : ((1 : UInt32) <<< i.toUInt32).toNat = 2 ^ i := by
    have hall : ∀ i ≤ 22, ((1 : UInt32) <<< i.toUInt32).toNat = 2 ^ i := by decide
    exact hall i h
  rw [hshift]
  push_cast
  rfl

theorem histogramBucketOf_inf {ilogb : Double → Int} (hi : ExponentOf ilogb) :
    histogramBucketOf ilogb (.inf false) = none := by
  have hover : addInt (2 ^ 31 - 1) 1 = none := by decide
  have hge : (Double.inf false).ge (.ofUInt32 1) = true := rfl
  simp only [histogramBucketOf, hge, hi.inf, hover, Bool.not_true, Bool.false_eq_true, if_false,
    Option.bind_eq_bind, Option.bind_none]

/-- **A sample lands in the bucket its bounds describe unless it is `+∞`**, where the
exponent overflows. NaN, negative samples and those below one are in bucket 0, and the last
bucket has no upper bound but `+∞` itself. -/
theorem histogramBucketOf_placed_iff {ilogb : Double → Int} (hi : ExponentOf ilogb) (v : Double) :
    Placed ilogb v ↔ v ≠ .inf false := by
  constructor
  · rintro ⟨i, hsome, -⟩ rfl
    rw [histogramBucketOf_inf hi] at hsome
    cases hsome
  · intro hinf
    by_cases hv : v = .nan
    · subst hv
      refine ⟨0, rfl, by decide, ?_, ?_, ?_, ?_, ?_⟩
      · simp
      · intro k hk _
        simp [Double.ge, Nat.ne_of_lt hk]
      · simp [Double.ge]
      · exact fun _ h => absurd rfl h
      · exact fun h => absurd h (by decide)
    · obtain ⟨n, hlevel, hbucket⟩ := histogramBucketOf_level hi hv hinf
      refine ⟨min 23 n, hbucket, by simp only [kHistogramBuckets]; omega, ?_, ?_, ?_, ?_, ?_⟩
      · simp only [hv, false_or, (hlevel 0 (by decide)).2]
        omega
      · intro k hk hk'
        rw [(hlevel (k - 1) (by omega)).1, (hlevel k (by omega)).2]
        omega
      · rw [(hlevel 22 (by decide)).1]
        omega
      · intro hi _
        rw [histogramBucketUpperBound_eq hi, (hlevel _ (by omega)).2]
        omega
      · intro hi
        rw [histogramBucketUpperBound_eq (by omega), (hlevel _ (by omega)).1]
        omega

end

/-- An `ilogb` that knows the exponent of every double. -/
def exponent : Double → Int
  | .nan => -2 ^ 31
  | .inf _ => 2 ^ 31 - 1
  | .finite d => if d.val = 0 then -2 ^ 31 else Int.log 2 |d.val|

theorem exponent_spec : ExponentOf exponent where
  finite d h := by
    have hpos : 0 < d.val := by linarith
    rw [exponent, if_neg hpos.ne', abs_of_pos hpos]
  inf := rfl

/-- A thousand is in bucket 10. -/
theorem histogramBucketOf_placed_thousand :
    ExponentOf exponent ∧ histogramBucketOf exponent (.ofUInt32 1000) = some 10 ∧
      Placed exponent (.ofUInt32 1000) :=
  ⟨exponent_spec, by decide +kernel, (histogramBucketOf_placed_iff exponent_spec _).mpr nofun⟩

/-- `+∞` has no bucket: `e + 1` overflows. -/
theorem histogramBucketOf_not_placed_inf :
    ExponentOf exponent ∧ histogramBucketOf exponent (.inf false) = none ∧
      ¬ ∀ v, Placed exponent v := by
  refine ⟨exponent_spec, histogramBucketOf_inf exponent_spec, fun h => ?_⟩
  obtain ⟨i, hsome, _⟩ := h (.inf false)
  rw [histogramBucketOf_inf exponent_spec] at hsome
  cases hsome

end XmBase.Telemetry
