import Mathlib.Data.Nat.ModEq
/-!
# XmBase.Lib.Word

Facts about 64-bit words and ring positions that the lock-free proofs share:
the parity test on the low bit, arithmetic that stays below the wrap, the map
from positions to slots of a ring, and the list of values handed over so far.
-/

namespace XmBase.Word

/-- The test `w & 1` reads the parity. -/
theorem and_one_ne_zero (w : UInt64) : w &&& 1 ≠ 0 ↔ w.toNat % 2 = 1 := by
  rw [ne_eq, ← UInt64.toNat_inj, UInt64.toNat_and]
  simp [Nat.and_one_is_mod]

theorem ne_zero_iff (w : UInt64) : w ≠ 0 ↔ 0 < w.toNat := by
  rw [ne_eq, ← UInt64.toNat_inj, UInt64.toNat_zero]
  omega

theorem toNat_add_of_lt {a b : UInt64} (h : a.toNat + b.toNat < 2 ^ 64) :
    (a + b).toNat = a.toNat + b.toNat := by
  rw [UInt64.toNat_add, Nat.mod_eq_of_lt h]

theorem toNat_sub_of_le {a b : UInt64} (h : b.toNat ≤ a.toNat) :
    (a - b).toNat = a.toNat - b.toNat :=
  UInt64.toNat_sub_of_le a b (UInt64.le_iff_toNat_le.mpr h)

/-- Parity survives the wrap. Adding two keeps the low bit also where the sum wraps, so an
even counter stays even for ever. -/
theorem even_add_two {s : UInt64} (h : s.toNat % 2 = 0) : (s + 2).toNat % 2 = 0 := by
  rw [UInt64.toNat_add, Nat.mod_mod_of_dvd _ (by decide)]
  simp
  omega

theorem odd_add_one {s : UInt64} (h : s.toNat % 2 = 0) : (s + 1).toNat % 2 = 1 := by
  rw [UInt64.toNat_add, Nat.mod_mod_of_dvd _ (by decide)]
  simp
  omega

theorem ne_sub_one (w : UInt64) : w ≠ w - 1 := by
  intro h
  have hlt := w.toNat_lt
  have := congrArg UInt64.toNat h
  rw [UInt64.toNat_sub] at this
  simp at this
  omega

theorem ofNat_ne_zero_iff (n : Nat) : UInt64.ofNat n ≠ 0 ↔ n % 2 ^ 64 ≠ 0 := by
  rw [ne_zero_iff, UInt64.toNat_ofNat']
  omega

/-- Positions less than a lap apart live in different slots. So two positions that a ring
holds at once are never in one slot. -/
theorem mod_ne_of_lt_add {N p q : Nat} (h1 : p < q) (h2 : q < p + N) : p % N ≠ q % N := by
  intro h
  have hdvd : N ∣ q - p := (Nat.modEq_iff_dvd' h1.le).mp h
  have := Nat.le_of_dvd (by omega) hdvd
  omega

/-- A later position in the same slot is at least a lap later. A slot that is met again has
been overwritten by then. -/
theorem add_le_of_mod_eq {N p q : Nat} (h1 : p < q) (h : p % N = q % N) : p + N ≤ q := by
  by_contra hlt
  exact mod_ne_of_lt_add h1 (by omega) h

/-- A position of a list after one more value was handed over. -/
theorem getElem?_append_singleton {α : Type*} {p : List α} {u v : α} {q : Nat}
    (hq : (p ++ [v])[q]? = some u) : p[q]? = some u ∨ (q = p.length ∧ u = v) := by
  rcases Nat.lt_or_ge q p.length with hlt | hge
  · rw [List.getElem?_append_left hlt] at hq
    exact Or.inl hq
  · rw [List.getElem?_append_right hge] at hq
    obtain ⟨h0, h1⟩ := List.getElem?_eq_some_iff.mp hq
    simp only [List.length_cons, List.length_nil] at h0
    simp only [List.getElem_singleton] at h1
    exact Or.inr ⟨by omega, h1.symm⟩

theorem getElem?_of_prefix {α : Type*} {p p' : List α} (h : p <+: p') {u : α} {q : Nat}
    (hq : p[q]? = some u) : p'[q]? = some u := by
  obtain ⟨t, rfl⟩ := h
  rw [List.getElem?_append_left (List.getElem?_eq_some_iff.mp hq).1]
  exact hq

end XmBase.Word
