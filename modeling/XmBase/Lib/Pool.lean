import Mathlib.Order.Lattice
import Mathlib.Algebra.Group.Basic
/-!
# XmBase.Lib.Pool

**What the calls of a pool contribute to an aggregate.** A pool is a list of calls
in any state; `total` folds the share of each of them with a commutative operation.
When a call moves on and its share grows by `x`, so does the total (`total_set`);
a call that has contributed nothing yet can join (`total_concat`).
-/

namespace XmBase.Pool

variable {α M : Type*} {op : M → M → M} {e : M} {f : α → M} {pool : List α} {k : Nat} {a b : α}

/-- The shares of all calls together. The operation is commutative, so the order of the
calls in the pool does not matter. -/
def total (op : M → M → M) (e : M) (f : α → M) (pool : List α) : M := (pool.map f).foldr op e

@[simp] theorem total_nil : total op e f [] = e := rfl

theorem total_cons : total op e f (a :: pool) = op (f a) (total op e f pool) := rfl

/-- One call moves on. Calls move in any order, and each only ever adds to its own share. -/
theorem total_set [hcomm : Std.Commutative op] [hassoc : Std.Associative op]
    (h : pool[k]? = some a) {x : M} (hf : f b = op (f a) x) : total op e f (pool.set k b) = op (total op e f pool) x := by
  induction pool generalizing k with
  | nil => cases h
  | cons c pool ih =>
      cases k with
      | zero =>
          obtain rfl : c = a := Option.some.inj h
          rw [List.set_cons_zero, total_cons, total_cons, hf, hassoc.assoc, hassoc.assoc,
            hcomm.comm x]
      | succ k =>
          rw [List.set_cons_succ, total_cons, total_cons, ih h, hassoc.assoc]

/-- A call joins. Its share is still neutral. -/
theorem total_concat (hid : op e e = e) (hf : f a = e) :
    total op e f (pool ++ [a]) = total op e f pool := by
  rw [total, total, List.map_append, List.foldr_append, List.map_singleton, List.foldr_cons,
    List.foldr_nil, hf, hid]

/-- What every call of the pool satisfies goes on holding if the one that moves does. -/
theorem forall_mem_set {P : α → Prop} (h : ∀ c ∈ pool, P c) (hb : P b) :
    ∀ c ∈ pool.set k b, P c := by
  intro c hc
  rcases List.mem_or_eq_of_mem_set hc with hc | rfl
  · exact h c hc
  · exact hb

end XmBase.Pool
