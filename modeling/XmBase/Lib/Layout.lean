import XmBase.Lib.Word
import Mathlib.Data.List.Basic
/-!
# XmBase.Lib.Layout

**Serial placement**: each item goes to the first multiple of its alignment at or
after the end of the one before. The exact layout is arithmetic on natural
numbers; `toNat_mask` says when the usual machine expression
`(x + a - 1) & ~(a - 1)` computes it.
-/

namespace XmBase.Layout

/-- The first multiple of `a` at or after `x`. -/
def alignUp (a x : Nat) : Nat := (x + a - 1) / a * a

theorem le_alignUp {a : Nat} (ha : 0 < a) (x : Nat) : x ≤ alignUp a x := by
  have h := Nat.lt_div_mul_add (a := x + a - 1) ha
  unfold alignUp
  omega

theorem alignUp_zero {a : Nat} (ha : 0 < a) : alignUp a 0 = 0 := by
  rw [alignUp, Nat.div_eq_of_lt (by omega), Nat.zero_mul]

theorem alignUp_mono (a : Nat) {x y : Nat} (h : x ≤ y) : alignUp a x ≤ alignUp a y :=
  Nat.mul_le_mul_right a (Nat.div_le_div_right (by omega))

theorem dvd_alignUp (a x : Nat) : a ∣ alignUp a x := Nat.dvd_mul_left a _

theorem alignUp_lt {a : Nat} (ha : 0 < a) (x : Nat) : alignUp a x < x + a := by
  have h : alignUp a x ≤ x + a - 1 := Nat.div_mul_le_self _ a
  omega

/-- Clearing the low bits of a word rounds down to a multiple of a power of two. -/
theorem toNat_and_not_pred {k : Nat} (hk : k < 64) (y : UInt64) :
    (y &&& ~~~(UInt64.ofNat (2 ^ k) - 1)).toNat = y.toNat / 2 ^ k * 2 ^ k := by
  have hpow : 2 ^ k < 2 ^ 64 := Nat.pow_lt_pow_right (by decide) hk
  have hone : 1 ≤ 2 ^ k := Nat.one_le_two_pow
  have hof : (UInt64.ofNat (2 ^ k)).toNat = 2 ^ k := by
    rw [UInt64.toNat_ofNat']
    exact Nat.mod_eq_of_lt hpow
  have hpred : (UInt64.ofNat (2 ^ k) - 1).toNat = 2 ^ k - 1 := by
    rw [Word.toNat_sub_of_le (by rw [hof]; exact hone), hof]
    rfl
  apply Nat.eq_of_testBit_eq
  intro i
  rw [UInt64.toNat_and, Nat.testBit_and, UInt64.toNat_not, hpred, Nat.testBit_mul_two_pow,
    Nat.testBit_div_two_pow, show UInt64.size - 1 - (2 ^ k - 1) = 2 ^ 64 - (2 ^ k - 1 + 1) by
      rw [show UInt64.size = 2 ^ 64 from rfl]; omega,
    Nat.testBit_two_pow_sub_succ (by omega), Nat.testBit_two_pow_sub_one]
  by_cases hi : i < 64
  · by_cases hki : k ≤ i
    · simp [hi, hki, Nat.sub_add_cancel hki]
    · simp [hi, hki, Nat.lt_of_not_le hki]
  · have hy : y.toNat.testBit i = false :=
      Nat.testBit_lt_two_pow (Nat.lt_of_lt_of_le y.toNat_lt
        (Nat.pow_le_pow_right (by decide) (Nat.le_of_not_lt hi)))
    by_cases hki : k ≤ i
    · simp [hki, Nat.sub_add_cancel hki, hy]
    · simp [hki, hy]

/-- The machine's round-up is the exact one, as long as that is a word. The alignment has to
be a power of two, as every C++ alignment is. -/
theorem toNat_mask {k : Nat} (hk : k < 64) {x : UInt64} (hfit : alignUp (2 ^ k) x.toNat < 2 ^ 64) :
    ((x + UInt64.ofNat (2 ^ k) - 1) &&& ~~~(UInt64.ofNat (2 ^ k) - 1)).toNat =
      alignUp (2 ^ k) x.toNat := by
  have hone : 1 ≤ 2 ^ k := Nat.one_le_two_pow
  have hpow : 2 ^ k < 2 ^ 64 := Nat.pow_lt_pow_right (by decide) hk
  have hx : x.toNat + 2 ^ k - 1 < 2 ^ 64 := by
    by_contra hge
    have hdiv : 2 ^ (64 - k) ≤ (x.toNat + 2 ^ k - 1) / 2 ^ k := by
      rw [Nat.le_div_iff_mul_le (by omega), ← Nat.pow_add, Nat.sub_add_cancel hk.le]
      omega
    have hmul := Nat.mul_le_mul_right (2 ^ k) hdiv
    rw [← Nat.pow_add, Nat.sub_add_cancel hk.le] at hmul
    unfold alignUp at hfit
    omega
  have hsum : (x + UInt64.ofNat (2 ^ k) - 1).toNat = x.toNat + 2 ^ k - 1 := by
    rw [UInt64.toNat_sub, UInt64.toNat_add, UInt64.toNat_ofNat']
    have : UInt64.toNat 1 = 1 := rfl
    have := x.toNat_lt
    rw [Nat.mod_eq_of_lt hpow]
    omega
  rw [toNat_and_not_pred hk, hsum, alignUp]

/-- Something to place. An item of no bytes is allowed; it takes only its padding. -/
structure Item where
  align : Nat
  bytes : Nat
  pos : 0 < align

/-- Where an item goes when the bytes below `x` are taken. -/
def Item.start (i : Item) (x : Nat) : Nat := alignUp i.align x

/-- The end of what is taken afterwards. -/
def Item.stop (i : Item) (x : Nat) : Nat := i.start x + i.bytes

theorem Item.le_start (i : Item) (x : Nat) : x ≤ i.start x := le_alignUp i.pos x

theorem Item.le_stop (i : Item) (x : Nat) : x ≤ i.stop x :=
  (i.le_start x).trans (Nat.le_add_right _ _)

/-- The ranges of the items placed in turn. Each item is rounded up from where the one
before ends. -/
def place : Nat → List Item → List (Nat × Nat)
  | _, [] => []
  | x, i :: is => (i.start x, i.stop x) :: place (i.stop x) is

/-- The end of the last one. -/
def finish : Nat → List Item → Nat
  | x, [] => x
  | x, i :: is => finish (i.stop x) is

theorem le_finish (is : List Item) (x : Nat) : x ≤ finish x is := by
  induction is generalizing x with
  | nil => exact Nat.le_refl _
  | cons i is ih => exact (i.le_stop x).trans (ih (i.stop x))

theorem finish_mono (is : List Item) {x y : Nat} (h : x ≤ y) : finish x is ≤ finish y is := by
  induction is generalizing x y with
  | nil => exact h
  | cons i is ih => exact ih (Nat.add_le_add_right (alignUp_mono i.align h) i.bytes)

theorem finish_append (is js : List Item) (x : Nat) :
    finish x (is ++ js) = finish (finish x is) js := by
  induction is generalizing x with
  | nil => rfl
  | cons i is ih => exact ih (i.stop x)

theorem le_of_mem_place {is : List Item} {x : Nat} {r : Nat × Nat} (hr : r ∈ place x is) :
    x ≤ r.1 := by
  induction is generalizing x with
  | nil => cases hr
  | cons i is ih =>
      rcases List.mem_cons.mp hr with rfl | hr
      · exact i.le_start x
      · exact (i.le_stop x).trans (ih hr)

theorem lt_of_mem_place {is : List Item} {x : Nat} {r : Nat × Nat}
    (hpos : ∀ i ∈ is, 0 < i.bytes) (hr : r ∈ place x is) : r.1 < r.2 := by
  induction is generalizing x with
  | nil => cases hr
  | cons i is ih =>
      rcases List.mem_cons.mp hr with rfl | hr
      · exact Nat.lt_add_of_pos_right (hpos i List.mem_cons_self)
      · exact ih (fun j hj => hpos j (List.mem_cons_of_mem i hj)) hr

/-- **Ranges placed in turn do not overlap, and come in order.** Order is enough: a range
that ends before the next one begins shares no byte with it. -/
theorem place_pairwise (is : List Item) (x : Nat) :
    (place x is).Pairwise fun r s => r.2 ≤ s.1 := by
  induction is generalizing x with
  | nil => exact List.Pairwise.nil
  | cons i is ih => exact List.Pairwise.cons (fun r hr => le_of_mem_place hr) (ih (i.stop x))

theorem length_place (is : List Item) (x : Nat) : (place x is).length = is.length := by
  induction is generalizing x with
  | nil => rfl
  | cons i is ih => rw [place, List.length_cons, List.length_cons, ih]

theorem take_place (is : List Item) (x n : Nat) : (place x is).take n = place x (is.take n) := by
  induction is generalizing x n with
  | nil => rw [place, List.take_nil, List.take_nil, place]
  | cons i is ih =>
      cases n with
      | zero => rfl
      | succ n => rw [place, List.take_succ_cons, List.take_succ_cons, place, ih]

/-- Each item goes behind those before it. -/
theorem getElem?_place {is : List Item} {n : Nat} {i : Item} (h : is[n]? = some i) (x : Nat) :
    (place x is)[n]? = some (i.start (finish x (is.take n)), i.stop (finish x (is.take n))) := by
  induction is generalizing x n with
  | nil => cases h
  | cons j is ih =>
      cases n with
      | zero =>
          obtain rfl : j = i := Option.some.inj h
          rfl
      | succ n =>
          rw [place, List.getElem?_cons_succ, ih h, List.take_succ_cons, finish]

/-- What is taken ends with the last range. -/
theorem finish_eq_getLast (is : List Item) (x : Nat) :
    finish x is = ((place x is).getLast?.map Prod.snd).getD x := by
  induction is generalizing x with
  | nil => rfl
  | cons i is ih =>
      rw [finish, place, ih, List.getLast?_cons, Option.map_some, Option.getD_some]
      cases (place (i.stop x) is).getLast? <;> rfl

end XmBase.Layout
