import Mathlib.Data.Int.CardIntervalMod
/-!
# XmBase.Lib.Laps

**Counting how often a ring has gone round.** Position `p` of a ring of depth `N` is lap
`p / N` of cell `p % N`. `laps` counts the visits of a cell among the first positions, so
that the place of a visit in the cell's own history is the lap of its position.
-/

namespace XmBase.Laps

variable {N : Nat}

/-- The visits of cell `j` among the first `n` positions. For a ring that is filled in order
this is how often the cell has been written. -/
def laps (N n j : Nat) : Nat := Nat.count (fun p => p % N = j) n

@[simp] theorem laps_zero (N j : Nat) : laps N 0 j = 0 := Nat.count_zero _

theorem laps_succ (n j : Nat) : laps N (n + 1) j = laps N n j + if j = n % N then 1 else 0 := by
  rw [laps, Nat.count_succ, laps]
  simp only [eq_comm]

/-- A position is behind its own lap's number of visits. -/
theorem laps_self (hN : 0 < N) (n : Nat) : laps N n (n % N) = n / N := by
  have hcount := Nat.count_modEq_card n hN n
  rw [if_neg (Nat.lt_irrefl _), Nat.add_zero] at hcount
  rw [laps, ← hcount]
  rfl

theorem laps_mono {n n' : Nat} (h : n ≤ n') (j : Nat) : laps N n j ≤ laps N n' j :=
  Nat.count_monotone _ h

/-- A visit is counted behind those of the earlier laps. So the entry for a position is in
the cell's history once the position was reached. -/
theorem lap_lt_laps (hN : 0 < N) {p n : Nat} (h : p < n) : p / N < laps N n (p % N) := by
  rw [← laps_self hN]
  exact Nat.count_strict_mono rfl h

/-- An earlier lap of the same cell is an earlier position. -/
theorem lap_le {n k : Nat} (h : k ≤ n / N) : n % N + k * N < n + 1 := by
  have hn := Nat.mod_add_div' n N
  have := Nat.mul_le_mul_right N h
  omega

end XmBase.Laps
