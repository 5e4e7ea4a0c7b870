import XmBase.Lib.Atomic
import XmBase.Lib.Pool
import XmBase.Lib.Run
import XmBase.Telemetry.Histogram
import Mathlib.Data.List.MinMax
import Mathlib.Algebra.BigOperators.Group.Finset.Piecewise
import Mathlib.Algebra.Order.BigOperators.Group.Finset
/-!
# XmBase.Telemetry.MetricSlots

`CounterSlot::Add` and `HistogramSlot::Record` (`telemetry/binding.hpp`) at the
granularity of single atomic accesses, with any number of calls in flight and
doubles as exact rationals.

A call that has passed the access to an aggregate has left its share there, and
nothing else changes the aggregate. So each of them is **the sum of the shares of
the calls** (`Books`), whatever the interleaving; `min` and `max` only move towards
the value that is being recorded.
-/

namespace XmBase.Telemetry.MetricSlots

open Atomic (Access Code)

/-! ### The slots -/

/-- The atomics of a `CounterSlot` and of a `HistogramSlot`. The bound of `buckets`
does not appear here. -/
inductive Loc
  | value
  | count
  | sum
  | min
  | max
  | buckets (i : Nat)
  deriving DecidableEq

@[reducible] def Val : Loc → Type
  | .value | .sum => ℚ
  | .count | .buckets _ => UInt64
  | .min => WithTop ℚ
  | .max => WithBot ℚ

abbrev Mem := Atomic.Mem Val

/-- The slots as they are constructed; the seeds of `min` and `max` are infinite. -/
def constructed : Mem
  | .value => (0 : ℚ)
  | .sum => (0 : ℚ)
  | .count => (0 : UInt64)
  | .buckets _ => (0 : UInt64)
  | .min => (⊤ : WithTop ℚ)
  | .max => (⊥ : WithBot ℚ)

/-- Program counter of `CounterSlot::Add`. -/
inductive AddPc
  | load
  /-- `value.compare_exchange_weak(cur, cur + v)`. -/
  | exchange (cur : ℚ)
  deriving DecidableEq

/-- `CounterSlot::Add(v)`; `spurious` is how the exchange at this step turns out. -/
def add (v : FiniteDouble) (spurious : Bool) : Code Val AddPc Unit
  | .load => .load .value fun cur => .inl (.exchange cur)
  | .exchange cur =>
      .compareExchangeWeak .value spurious cur (cur + v.val) (.inr ()) fun cur => .inl (.exchange cur)

/-- Program counter of `HistogramSlot::Record`. -/
inductive RecordPc
  /-- `count.fetch_add(1)`. -/
  | count
  /-- `buckets[HistogramBucketOf(v)].fetch_add(1)`. -/
  | bucket
  | loadSum
  /-- `sum.compare_exchange_weak(c, c + v)`. -/
  | exchangeSum (c : ℚ)
  | loadMin
  /-- `min.compare_exchange_weak(m, v)`, after `v < m` was found true. -/
  | exchangeMin (m : WithTop ℚ)
  | loadMax
  /-- `max.compare_exchange_weak(x, v)`, after `v > x` was found true. -/
  | exchangeMax (x : WithBot ℚ)
  deriving DecidableEq

/-- The condition of the `min` loop. -/
def checkMin (v : FiniteDouble) (m : WithTop ℚ) : RecordPc ⊕ Unit :=
  if (v.val : WithTop ℚ) < m then .inl (.exchangeMin m) else .inl .loadMax

/-- The condition of the `max` loop. -/
def checkMax (v : FiniteDouble) (x : WithBot ℚ) : RecordPc ⊕ Unit :=
  if (v.val : WithBot ℚ) > x then .inl (.exchangeMax x) else .inr ()

section

variable (ilogb : Double → Int)

/-- The index into `buckets`; one that does not exist lies behind them. -/
def bucketIndex (v : FiniteDouble) : Nat :=
  (histogramBucketOf ilogb (.finite v)).getD kHistogramBuckets

/-- `HistogramSlot::Record(v)`. -/
def record (v : FiniteDouble) (spurious : Bool) : Code Val RecordPc Unit
  | .count => .rmw .count (fun n => n + 1) fun _ => .inl .bucket
  | .bucket => .rmw (.buckets (bucketIndex ilogb v)) (fun n => n + 1) fun _ => .inl .loadSum
  | .loadSum => .load .sum fun c => .inl (.exchangeSum c)
  | .exchangeSum c =>
      .compareExchangeWeak .sum spurious c (c + v.val) (.inl .loadMin) fun c => .inl (.exchangeSum c)
  | .loadMin => .load .min (checkMin v)
  | .exchangeMin m => .compareExchangeWeak .min spurious m v.val (.inl .loadMax) (checkMin v)
  | .loadMax => .load .max (checkMax v)
  | .exchangeMax x => .compareExchangeWeak .max spurious x v.val (.inr ()) (checkMax v)

/-! ### The system -/

/-- A call, in flight or completed. -/
inductive Call
  | add (v : FiniteDouble) (pc : AddPc ⊕ Unit)
  | record (v : FiniteDouble) (pc : RecordPc ⊕ Unit)

/-- The slots, and every call made on them so far. A thread that makes several calls
makes them one after the other; nothing here depends on which thread makes which. -/
structure World where
  mem : Mem
  calls : List Call

inductive Label
  /-- Some thread calls `Add(v)`. -/
  | add (v : FiniteDouble)
  /-- Some thread calls `Record(v)`. -/
  | record (v : FiniteDouble)
  /-- Call `k` makes its next access. -/
  | access (k : Nat) (spurious : Bool)

def World.initial : World := ⟨constructed, []⟩

/-- The next access of a call in flight. -/
def Call.access (spurious : Bool) (m : Mem) : Call → Option (Mem × Call)
  | .add v (.inl pc) =>
      let r := (MetricSlots.add v spurious pc).exec m
      some (r.1, .add v r.2)
  | .record v (.inl pc) =>
      let r := (MetricSlots.record ilogb v spurious pc).exec m
      some (r.1, .record v r.2)
  | .add _ (.inr _) => none
  | .record _ (.inr _) => none

def step (w : World) : Label → Option World
  | .add v => some { w with calls := w.calls ++ [.add v (.inl .load)] }
  | .record v => some { w with calls := w.calls ++ [.record v (.inl .count)] }
  | .access k spurious => do
      let c ← w.calls[k]?
      let (m, c) ← c.access ilogb spurious w.mem
      some ⟨m, w.calls.set k c⟩

end

/-! ### What an access does

Most accesses leave the aggregates alone. The others move one of them by the call's own
value, and put the call past it; there are five such for a `Record` and one for an `Add`. -/

/-- How many aggregates a `Record` is done with, in the order it updates them. -/
def passed : RecordPc ⊕ Unit → Nat
  | .inl .count => 0
  | .inl .bucket => 1
  | .inl .loadSum | .inl (.exchangeSum _) => 2
  | .inl .loadMin | .inl (.exchangeMin _) => 3
  | .inl .loadMax | .inl (.exchangeMax _) => 4
  | .inr () => 5

/-- An exchange is only tried where the condition of its loop held. -/
def Guarded (v : FiniteDouble) : RecordPc ⊕ Unit → Prop
  | .inl (.exchangeMin m) => (v.val : WithTop ℚ) < m
  | .inl (.exchangeMax x) => x < (v.val : WithBot ℚ)
  | _ => True

section

variable {ilogb : Double → Int}

/-- What an access of `Record(v)` does to the slots, by the number of aggregates
the call is done with before and after it. -/
inductive Effect (ilogb : Double → Int) (v : FiniteDouble) (m : Mem) : Nat → Mem → Nat → Prop
  | stay (n : Nat) : Effect ilogb v m n m n
  | count : Effect ilogb v m 0 (Function.update m .count (m .count + 1)) 1
  | bucket : Effect ilogb v m 1 (Function.update m (.buckets (bucketIndex ilogb v))
      (m (.buckets (bucketIndex ilogb v)) + 1)) 2
  | sum : Effect ilogb v m 2 (Function.update m .sum (m .sum + v.val)) 3
  | minKept (h : m .min ≤ (v.val : WithTop ℚ)) : Effect ilogb v m 3 m 4
  | minLowered (h : (v.val : WithTop ℚ) < m .min) :
      Effect ilogb v m 3 (Function.update m .min (v.val : WithTop ℚ)) 4
  | maxKept (h : (v.val : WithBot ℚ) ≤ m .max) : Effect ilogb v m 4 m 5
  | maxRaised (h : m .max < (v.val : WithBot ℚ)) :
      Effect ilogb v m 4 (Function.update m .max (v.val : WithBot ℚ)) 5

/-- The condition of the `min` loop on the value just found. -/
theorem checkMin_effect (v : FiniteDouble) (m : Mem) :
    Effect ilogb v m 3 m (passed (checkMin v (m .min))) ∧ Guarded v (checkMin v (m .min)) := by
  unfold checkMin
  split
  · next h => exact ⟨.stay 3, h⟩
  · next h => exact ⟨.minKept (not_lt.mp h), trivial⟩

theorem checkMax_effect (v : FiniteDouble) (m : Mem) :
    Effect ilogb v m 4 m (passed (checkMax v (m .max))) ∧ Guarded v (checkMax v (m .max)) := by
  unfold checkMax
  split
  · next h => exact ⟨.stay 4, h⟩
  · next h => exact ⟨.maxKept (not_lt.mp h), trivial⟩

variable (ilogb) in
/-- **Every access of `Record` has one of these effects.** -/
theorem record_effect (v : FiniteDouble) (spurious : Bool) (m : Mem) (pc : RecordPc)
    (hg : Guarded v (.inl pc)) :
    Effect ilogb v m (passed (.inl pc)) ((record ilogb v spurious pc).exec m).1
        (passed ((record ilogb v spurious pc).exec m).2) ∧
      Guarded v ((record ilogb v spurious pc).exec m).2 := by
  cases pc with
  | count => exact ⟨.count, trivial⟩
  | bucket => exact ⟨.bucket, trivial⟩
  | loadSum => exact ⟨.stay 2, trivial⟩
  | exchangeSum c =>
      rcases Access.exec_compareExchangeWeak m .sum spurious c (c + v.val)
        (Sum.inl (β := Unit) RecordPc.loadMin) (fun c => .inl (.exchangeSum c)) with ⟨hc, h⟩ | h
      · rw [record, h, ← hc]
        exact ⟨.sum, trivial⟩
      · rw [record, h]
        exact ⟨.stay 2, trivial⟩
  | loadMin => exact checkMin_effect v m
  | exchangeMin x =>
      rcases Access.exec_compareExchangeWeak m .min spurious x v.val
        (.inl .loadMax) (checkMin v) with ⟨hx, h⟩ | h
      · rw [record, h]
        exact ⟨.minLowered (hx ▸ hg), trivial⟩
      · rw [record, h]
        exact checkMin_effect v m
  | loadMax => exact checkMax_effect v m
  | exchangeMax x =>
      rcases Access.exec_compareExchangeWeak m .max spurious x v.val (.inr ())
        (checkMax v) with ⟨hx, h⟩ | h
      · rw [record, h]
        exact ⟨.maxRaised (hx ▸ hg), trivial⟩
      · rw [record, h]
        exact checkMax_effect v m

/-- An access of `Add` leaves everything alone, or adds its value and is done. -/
theorem add_effect (v : FiniteDouble) (spurious : Bool) (m : Mem) (pc : AddPc) :
    (∃ pc', (add v spurious pc).exec m = (m, .inl pc')) ∨
      (add v spurious pc).exec m = (Function.update m .value (m .value + v.val), .inr ()) := by
  cases pc with
  | load => exact .inl ⟨_, rfl⟩
  | exchange cur =>
      rcases Access.exec_compareExchangeWeak m .value spurious cur (cur + v.val)
        (Sum.inr (α := AddPc) ()) (fun cur => .inl (.exchange cur)) with ⟨hc, h⟩ | h
      · rw [add, h, ← hc]
        exact .inr rfl
      · rw [add, h]
        exact .inl ⟨_, rfl⟩

end

/-! ### The books

The invariant. An aggregate is the total of what the calls past it have left there, so it
does not matter in which order they came. A step that moves an aggregate moves the share of
the call that makes it by the same amount (`Posts`). -/

/-- What a `Record` that is past aggregate `k` has left in it; `e` before that. -/
def Call.share {M : Type} (e : M) (k : Nat) (x : FiniteDouble → M) : Call → M
  | .add _ _ => e
  | .record v pc => if k < passed pc then x v else e

/-- What an `Add` that is done has added. -/
def Call.added : Call → ℚ
  | .add v (.inr ()) => v.val
  | .add _ (.inl _) => 0
  | .record _ _ => 0

def Call.Guarded : Call → Prop
  | .add _ _ => True
  | .record v pc => MetricSlots.Guarded v pc

open Pool (total total_set total_concat)

/-- **Every aggregate is the total of the calls' shares in it.** -/
structure Books (ilogb : Double → Int) (w : World) : Prop where
  guarded : ∀ c ∈ w.calls, c.Guarded
  value : w.mem .value = total (· + ·) 0 Call.added w.calls
  count : w.mem .count = .ofNat (total (· + ·) 0 (Call.share 0 0 fun _ => 1) w.calls)
  buckets : ∀ i, w.mem (.buckets i) = .ofNat (total (· + ·) 0
    (Call.share 0 1 fun v => if bucketIndex ilogb v = i then 1 else 0) w.calls)
  sum : w.mem .sum = total (· + ·) 0 (Call.share 0 2 fun v => v.val) w.calls
  min : w.mem .min = total min ⊤ (Call.share ⊤ 3 fun v => (v.val : WithTop ℚ)) w.calls
  max : w.mem .max = total max ⊥ (Call.share ⊥ 4 fun v => (v.val : WithBot ℚ)) w.calls

section

variable {ilogb : Double → Int}

theorem Books.initial : Books ilogb World.initial where
  guarded := nofun
  value := rfl
  count := rfl
  buckets _ := rfl
  sum := rfl
  min := rfl
  max := rfl

/-- A call that has not begun joins. Its shares are all neutral. -/
theorem Books.join {w : World} (hw : Books ilogb w) {c : Call}
    (hc : (∃ v, c = .add v (.inl .load)) ∨ ∃ v, c = .record v (.inl .count)) :
    Books ilogb { w with calls := w.calls ++ [c] } := by
  have hguarded : c.Guarded := by
    rcases hc with ⟨v, rfl⟩ | ⟨v, rfl⟩ <;> trivial
  have hadded : c.added = 0 := by
    rcases hc with ⟨v, rfl⟩ | ⟨v, rfl⟩ <;> rfl
  have hshare : ∀ {M : Type} (e : M) (k : Nat) (x : FiniteDouble → M), c.share e k x = e := by
    intro M e k x
    rcases hc with ⟨v, rfl⟩ | ⟨v, rfl⟩ <;> rfl
  constructor
  · intro d hd
    rcases List.mem_append.mp hd with hd | hd
    · exact hw.guarded d hd
    · rw [List.mem_singleton.mp hd]
      exact hguarded
  · rw [total_concat (add_zero 0) hadded]
    exact hw.value
  · rw [total_concat (add_zero 0) (hshare _ _ _)]
    exact hw.count
  · intro i
    rw [total_concat (add_zero 0) (hshare _ _ _)]
    exact hw.buckets i
  · rw [total_concat (add_zero 0) (hshare _ _ _)]
    exact hw.sum
  · rw [total_concat (min_self _) (hshare _ _ _)]
    exact hw.min
  · rw [total_concat (max_self _) (hshare _ _ _)]
    exact hw.max

/-- How the slots and the shares of one call move together. -/
structure Posts (ilogb : Double → Int) (m m' : Mem) (c c' : Call) : Prop where
  value : ∃ x : ℚ, m' .value = m .value + x ∧ c'.added = c.added + x
  count : ∃ x : Nat, m' .count = m .count + .ofNat x ∧
    c'.share 0 0 (fun _ => 1) = c.share 0 0 (fun _ => 1) + x
  buckets : ∀ i, ∃ x : Nat, m' (.buckets i) = m (.buckets i) + .ofNat x ∧
    c'.share 0 1 (fun v => if bucketIndex ilogb v = i then 1 else 0) =
      c.share 0 1 (fun v => if bucketIndex ilogb v = i then 1 else 0) + x
  sum : ∃ x : ℚ, m' .sum = m .sum + x ∧
    c'.share 0 2 (fun v => v.val) = c.share 0 2 (fun v => v.val) + x
  min : ∃ x : WithTop ℚ, m' .min = Min.min (m .min) x ∧
    c'.share ⊤ 3 (fun v => (v.val : WithTop ℚ)) =
      Min.min (c.share ⊤ 3 fun v => (v.val : WithTop ℚ)) x
  max : ∃ x : WithBot ℚ, m' .max = Max.max (m .max) x ∧
    c'.share ⊥ 4 (fun v => (v.val : WithBot ℚ)) =
      Max.max (c.share ⊥ 4 fun v => (v.val : WithBot ℚ)) x

/-- A call moves on. Each aggregate moves by what the call's share in it grows by. -/
theorem Books.move {w : World} (hw : Books ilogb w) {k : Nat} {c c' : Call} {m' : Mem}
    (hk : w.calls[k]? = some c) (hg : c'.Guarded) (h : Posts ilogb w.mem m' c c') :
    Books ilogb ⟨m', w.calls.set k c'⟩ := by
  constructor
  · exact Pool.forall_mem_set hw.guarded hg
  · obtain ⟨x, hm, hc⟩ := h.value
    rw [total_set hk hc, ← hw.value]
    exact hm
  · obtain ⟨x, hm, hc⟩ := h.count
    rw [total_set hk hc, UInt64.ofNat_add, ← hw.count]
    exact hm
  · intro i
    obtain ⟨x, hm, hc⟩ := h.buckets i
    rw [total_set hk hc, UInt64.ofNat_add, ← hw.buckets i]
    exact hm
  · obtain ⟨x, hm, hc⟩ := h.sum
    rw [total_set hk hc, ← hw.sum]
    exact hm
  · obtain ⟨x, hm, hc⟩ := h.min
    rw [total_set hk hc, ← hw.min]
    exact hm
  · obtain ⟨x, hm, hc⟩ := h.max
    rw [total_set hk hc, ← hw.max]
    exact hm

/-- A share that does not change, in an aggregate that does not. -/
theorem Posts.refl (m : Mem) {c c' : Call} (hadded : c'.added = c.added)
    (hshare : ∀ {M : Type} (e : M) (k : Nat) (x : FiniteDouble → M), c'.share e k x = c.share e k x) :
    Posts ilogb m m c c' where
  value := ⟨0, (add_zero _).symm, by rw [hadded, add_zero]⟩
  count := ⟨0, (UInt64.add_zero _).symm, by rw [hshare, add_zero]⟩
  buckets _ := ⟨0, (UInt64.add_zero _).symm, by rw [hshare, add_zero]⟩
  sum := ⟨0, (add_zero _).symm, by rw [hshare, add_zero]⟩
  min := ⟨⊤, (min_top_right _).symm, by rw [hshare, min_top_right]⟩
  max := ⟨⊥, (max_bot_right _).symm, by rw [hshare, max_bot_right]⟩

/-- **The effect of an access is posted to the books.** -/
theorem Effect.posts {v : FiniteDouble} {m m' : Mem} {n n' : Nat} (h : Effect ilogb v m n m' n')
    {pc pc' : RecordPc ⊕ Unit} (hn : passed pc = n) (hn' : passed pc' = n') :
    Posts ilogb m m' (.record v pc) (.record v pc') := by
  cases h with
  | stay n =>
      refine .refl m rfl fun e k x => ?_
      rw [Call.share, Call.share, hn, hn']
  | count =>
      refine ⟨⟨0, ?_⟩, ⟨1, ?_⟩, fun i => ⟨0, ?_⟩, ⟨0, ?_⟩, ⟨⊤, ?_⟩, ⟨⊥, ?_⟩⟩ <;>
        simp [Call.share, Call.added, hn, hn']
  | bucket =>
      refine ⟨⟨0, ?_⟩, ⟨0, ?_⟩, fun i => ⟨if bucketIndex ilogb v = i then 1 else 0, ?_⟩, ⟨0, ?_⟩,
        ⟨⊤, ?_⟩, ⟨⊥, ?_⟩⟩
      case refine_3 =>
        -- the only aggregate with an index
        by_cases hi : bucketIndex ilogb v = i
        · subst hi
          simp [Call.share, hn, hn']
        · have hne : (Loc.buckets i) ≠ .buckets (bucketIndex ilogb v) :=
            fun h => hi (Loc.buckets.inj h).symm
          simp [Call.share, hn, hn', hi, Function.update_of_ne hne]
      all_goals simp [Call.share, Call.added, hn, hn']
  | sum =>
      refine ⟨⟨0, ?_⟩, ⟨0, ?_⟩, fun i => ⟨0, ?_⟩, ⟨v.val, ?_⟩, ⟨⊤, ?_⟩, ⟨⊥, ?_⟩⟩ <;>
        simp [Call.share, Call.added, hn, hn']
  | minKept h =>
      refine ⟨⟨0, ?_⟩, ⟨0, ?_⟩, fun i => ⟨0, ?_⟩, ⟨0, ?_⟩, ⟨v.val, ?_⟩, ⟨⊥, ?_⟩⟩ <;>
        simp [Call.share, Call.added, hn, hn', h]
  | minLowered h =>
      refine ⟨⟨0, ?_⟩, ⟨0, ?_⟩, fun i => ⟨0, ?_⟩, ⟨0, ?_⟩, ⟨v.val, ?_⟩, ⟨⊥, ?_⟩⟩ <;>
        simp [Call.share, Call.added, hn, hn', h.le]
  | maxKept h =>
      refine ⟨⟨0, ?_⟩, ⟨0, ?_⟩, fun i => ⟨0, ?_⟩, ⟨0, ?_⟩, ⟨⊤, ?_⟩, ⟨v.val, ?_⟩⟩ <;>
        simp [Call.share, Call.added, hn, hn', h]
  | maxRaised h =>
      refine ⟨⟨0, ?_⟩, ⟨0, ?_⟩, fun i => ⟨0, ?_⟩, ⟨0, ?_⟩, ⟨⊤, ?_⟩, ⟨v.val, ?_⟩⟩ <;>
        simp [Call.share, Call.added, hn, hn', h.le]

/-- The step lemma. -/
theorem Books.step {w w' : World} {l : Label} (hw : Books ilogb w)
    (h : step ilogb w l = some w') : Books ilogb w' := by
  cases l with
  | add v =>
      obtain rfl := Option.some.inj h
      exact hw.join (.inl ⟨v, rfl⟩)
  | record v =>
      obtain rfl := Option.some.inj h
      exact hw.join (.inr ⟨v, rfl⟩)
  | access k spurious =>
      simp only [MetricSlots.step, Option.bind_eq_bind, Option.bind_eq_some_iff] at h
      obtain ⟨c, hk, ⟨m', c'⟩, hc, hw'⟩ := h
      obtain rfl := Option.some.inj hw'
      cases c with
      | add v pc =>
          cases pc with
          | inr => cases hc
          | inl pc =>
              obtain ⟨rfl, rfl⟩ := Prod.mk.inj (Option.some.inj hc)
              refine hw.move hk trivial ?_
              rcases add_effect v spurious w.mem pc with ⟨pc', h⟩ | h
              · rw [h]
                exact .refl w.mem rfl fun e k x => rfl
              · rw [h]
                refine ⟨⟨v.val, ?_⟩, ⟨0, ?_⟩, fun i => ⟨0, ?_⟩, ⟨0, ?_⟩, ⟨⊤, ?_⟩, ⟨⊥, ?_⟩⟩ <;>
                  simp [Call.share, Call.added]
      | record v pc =>
          cases pc with
          | inr => cases hc
          | inl pc =>
              obtain ⟨rfl, rfl⟩ := Prod.mk.inj (Option.some.inj hc)
              have hg : MetricSlots.Guarded v (.inl pc) :=
                hw.guarded _ (List.mem_of_getElem? hk)
              obtain ⟨heffect, hg'⟩ := record_effect ilogb v spurious w.mem pc hg
              exact hw.move hk hg' (heffect.posts rfl rfl)

/-- The run lemma. -/
theorem Books.exec {w : World} {ls : List Label}
    (h : Run.exec (MetricSlots.step ilogb) World.initial ls = some w) : Books ilogb w :=
  Run.exec_invariant (fun hw h => Books.step hw h) Books.initial h

end

/-! ### When all calls have completed

Then every share is the whole value, and the totals are those of the values passed in. In
between, a call counts itself in `count` before it takes a bucket, so the buckets are never
ahead. Both words must not have wrapped for that. -/

/-- The values of the `Record` calls, in the order in which they were made. -/
def recorded (calls : List Call) : List FiniteDouble :=
  calls.filterMap fun
    | .record v _ => some v
    | .add _ _ => none

/-- The values of the `Add` calls. -/
def addends (calls : List Call) : List FiniteDouble :=
  calls.filterMap fun
    | .add v _ => some v
    | .record _ _ => none

def Call.completed : Call → Bool
  | .add _ pc => pc.isRight
  | .record _ pc => pc.isRight

section

variable {M : Type} {op : M → M → M} {e : M}

/-- Once every call is done, each has left its whole share. -/
theorem total_share (hid : ∀ a, op e a = a) {k : Nat} (hk : k < 5) (x : FiniteDouble → M)
    {calls : List Call} (h : ∀ c ∈ calls, c.completed = true) :
    total op e (Call.share e k x) calls = ((recorded calls).map x).foldr op e := by
  induction calls with
  | nil => rfl
  | cons c calls ih =>
      obtain ⟨hc, hcalls⟩ := List.forall_mem_cons.mp h
      rw [Pool.total_cons, ih hcalls]
      cases c with
      | add v pc => exact hid _
      | record v pc =>
          cases pc with
          | inl pc => cases hc
          | inr u =>
              have hpast : k < passed (.inr u) := hk
              rw [Call.share, if_pos hpast]
              rfl

theorem total_added {calls : List Call} (h : ∀ c ∈ calls, c.completed = true) :
    total (· + ·) 0 Call.added calls = ((addends calls).map fun v => v.val).sum := by
  induction calls with
  | nil => rfl
  | cons c calls ih =>
      obtain ⟨hc, hcalls⟩ := List.forall_mem_cons.mp h
      rw [Pool.total_cons, ih hcalls]
      cases c with
      | record v pc => exact zero_add _
      | add v pc =>
          cases pc with
          | inl pc => cases hc
          | inr u => rfl

end

theorem foldr_one (vs : List FiniteDouble) : (vs.map fun _ => 1).foldr (· + ·) 0 = vs.length := by
  induction vs with
  | nil => rfl
  | cons v vs ih => rw [List.map_cons, List.foldr_cons, ih, List.length_cons, Nat.add_comm]

theorem foldr_min (vs : List FiniteDouble) :
    (vs.map fun v => (v.val : WithTop ℚ)).foldr min ⊤ = (vs.map fun v => v.val).minimum := by
  induction vs with
  | nil => rfl
  | cons v vs ih => rw [List.map_cons, List.foldr_cons, ih, List.map_cons, List.minimum_cons]

theorem foldr_max (vs : List FiniteDouble) :
    (vs.map fun v => (v.val : WithBot ℚ)).foldr max ⊥ = (vs.map fun v => v.val).maximum := by
  induction vs with
  | nil => rfl
  | cons v vs ih => rw [List.map_cons, List.foldr_cons, ih, List.map_cons, List.maximum_cons]

section

variable {ilogb : Double → Int}

/-- Past its bucket a `Record` has counted in exactly one of them. -/
theorem sum_total_buckets (hi : ∀ v, bucketIndex ilogb v < kHistogramBuckets) (calls : List Call) :
    ∑ i ∈ Finset.range kHistogramBuckets,
        total (· + ·) 0 (Call.share 0 1 fun v => if bucketIndex ilogb v = i then 1 else 0) calls =
      total (· + ·) 0 (Call.share 0 1 fun _ => 1) calls := by
  induction calls with
  | nil => exact Finset.sum_const_zero
  | cons c calls ih =>
      have hone : ∑ i ∈ Finset.range kHistogramBuckets,
          c.share 0 1 (fun v => if bucketIndex ilogb v = i then 1 else 0) =
          c.share 0 1 (fun _ => 1) := by
        cases c with
        | add v pc => exact Finset.sum_const_zero
        | record v pc =>
            simp only [Call.share]
            split
            · rw [Finset.sum_ite_eq, if_pos (Finset.mem_range.mpr (hi v))]
            · exact Finset.sum_const_zero
      simp only [Pool.total_cons]
      rw [Finset.sum_add_distrib, ih, hone]

/-- A `Record` counts itself before it takes a bucket. The first access is to `count`, the
second to a bucket. -/
theorem total_bucketed_le (calls : List Call) :
    total (· + ·) 0 (Call.share 0 1 fun _ => 1) calls ≤
      total (· + ·) 0 (Call.share 0 0 fun _ => 1) calls := by
  induction calls with
  | nil => exact Nat.le_refl 0
  | cons c calls ih =>
      rw [Pool.total_cons, Pool.total_cons]
      refine Nat.add_le_add ?_ ih
      cases c with
      | add v pc => exact Nat.le_refl 0
      | record v pc =>
          simp only [Call.share]
          split_ifs <;> omega

theorem total_counted_le (calls : List Call) :
    total (· + ·) 0 (Call.share 0 0 fun _ => 1) calls ≤ (recorded calls).length := by
  induction calls with
  | nil => exact Nat.le_refl 0
  | cons c calls ih =>
      rw [Pool.total_cons]
      cases c with
      | add v pc => simpa [Call.share, recorded] using ih
      | record v pc =>
          have hle : Call.share 0 0 (fun _ => 1) (.record v pc) ≤ 1 := by
            simp only [Call.share]
            split_ifs <;> omega
          have hlen : (recorded (.record v pc :: calls)).length = (recorded calls).length + 1 := rfl
          omega

theorem bucketIndex_lt (hi : ExponentOf ilogb) (v : FiniteDouble) :
    bucketIndex ilogb v < kHistogramBuckets := by
  obtain ⟨n, _, h⟩ := histogramBucketOf_level hi (v := .finite v) nofun nofun
  rw [bucketIndex, h, Option.getD_some, kHistogramBuckets]
  omega

/-- The sum of all buckets. -/
def World.bucketSum (w : World) : Nat :=
  ∑ i ∈ Finset.range kHistogramBuckets, (w.mem (.buckets i)).toNat

theorem toNat_ofNat_of_le {a n : Nat} (h : a ≤ n) (hn : n < 2 ^ 64) :
    (UInt64.ofNat a).toNat = a :=
  UInt64.toNat_ofNat_of_lt' (h.trans_lt hn)

theorem Books.count_toNat {w : World} (hw : Books ilogb w)
    (hn : (recorded w.calls).length < 2 ^ 64) :
    (w.mem .count).toNat = total (· + ·) 0 (Call.share 0 0 fun _ => 1) w.calls := by
  rw [hw.count, toNat_ofNat_of_le (total_counted_le _) hn]

theorem Books.bucketSum_eq {w : World} (hw : Books ilogb w) (hi : ExponentOf ilogb)
    (hn : (recorded w.calls).length < 2 ^ 64) :
    w.bucketSum = total (· + ·) 0 (Call.share 0 1 fun _ => 1) w.calls := by
  have hsum := sum_total_buckets (bucketIndex_lt hi) w.calls
  have hle := (total_bucketed_le w.calls).trans (total_counted_le w.calls)
  rw [World.bucketSum, ← hsum]
  refine Finset.sum_congr rfl fun i hi => ?_
  rw [hw.buckets i]
  refine toNat_ofNat_of_le (le_trans ?_ hle) hn
  rw [← hsum]
  exact Finset.single_le_sum (f := fun i => total (· + ·) 0
    (Call.share 0 1 fun v => if bucketIndex ilogb v = i then 1 else 0) w.calls)
    (fun _ _ => Nat.zero_le _) hi

/-- **No update is lost.** In every reachable state with fewer than `2 ^ 64` Records
the buckets hold no more samples than `count`, and once all calls have completed every
aggregate is that of the values passed in. -/
theorem updates_not_lost (hi : ExponentOf ilogb) {ls : List Label} {w : World}
    (h : Run.exec (step ilogb) World.initial ls = some w)
    (hn : (recorded w.calls).length < 2 ^ 64) :
    w.bucketSum ≤ (w.mem .count).toNat ∧
      ((∀ c ∈ w.calls, c.completed = true) →
        (w.mem .count).toNat = (recorded w.calls).length ∧
        w.bucketSum = (recorded w.calls).length ∧
        w.mem .sum = ((recorded w.calls).map fun v => v.val).sum ∧
        w.mem .min = ((recorded w.calls).map fun v => v.val).minimum ∧
        w.mem .max = ((recorded w.calls).map fun v => v.val).maximum ∧
        w.mem .value = ((addends w.calls).map fun v => v.val).sum) := by
  have hw : Books ilogb w := Books.exec h
  have hcount := hw.count_toNat hn
  have hbuckets := hw.bucketSum_eq hi hn
  constructor
  · rw [hbuckets, hcount]
    exact total_bucketed_le w.calls
  · intro hdone
    refine ⟨?_, ?_, ?_, ?_, ?_, ?_⟩
    · rw [hcount, total_share Nat.zero_add (by decide) _ hdone, foldr_one]
    · rw [hbuckets, total_share Nat.zero_add (by decide) _ hdone, foldr_one]
    · rw [hw.sum, total_share zero_add (by decide) _ hdone]
      rfl
    · rw [hw.min, total_share min_top_left (by decide) _ hdone, foldr_min]
    · rw [hw.max, total_share max_bot_left (by decide) _ hdone, foldr_max]
    · rw [hw.value, total_added hdone]

end

/-- The samples one and minus three. -/
def one : FiniteDouble := ⟨1, by decide +kernel⟩

def minusThree : FiniteDouble := ⟨-3, by decide +kernel⟩

/-- Two Records and two Adds of different values, neck and neck: every exchange on `sum`,
`min`, `max` and `value` is made by two calls that have read the same, so one of them
fails and goes round again, and one exchange on `sum` fails spuriously on top. -/
def interleaved : List Label :=
  [.record one, .record minusThree, .add one, .add minusThree,
    .access 0 false, .access 1 false, .access 1 false, .access 0 false,
    .access 0 false, .access 1 false, .access 1 false, .access 0 false, .access 0 true, .access 0 false,
    .access 0 false, .access 1 false, .access 1 false, .access 0 false,
    .access 0 false, .access 1 false, .access 0 false, .access 1 false,
    .access 2 false, .access 3 false, .access 3 false, .access 2 false, .access 2 false]

theorem updates_not_lost_interleaved :
    ∃ w, Run.exec (step exponent) World.initial interleaved = some w ∧
      (recorded w.calls).length < 2 ^ 64 ∧ (∀ c ∈ w.calls, c.completed = true) ∧
      (w.mem .count).toNat = 2 ∧ w.bucketSum = 2 ∧ w.mem .sum = (-2 : ℚ) ∧
      w.mem .min = ((-3 : ℚ) : WithTop ℚ) ∧ w.mem .max = ((1 : ℚ) : WithBot ℚ) ∧
      w.mem .value = (-2 : ℚ) := by
  have hrun : ∃ w, Run.exec (step exponent) World.initial interleaved = some w ∧
      ((recorded w.calls).map (fun v => v.val) = [1, -3] ∧
        (addends w.calls).map (fun v => v.val) = [1, -3] ∧ ∀ c ∈ w.calls, c.completed = true) :=
    Run.exists_exec (by decide +kernel)
  obtain ⟨w, hw, hrecorded, hadded, hdone⟩ := hrun
  have hlen : (recorded w.calls).length = 2 := by
    rw [← List.length_map (f := fun v : FiniteDouble => v.val), hrecorded]
    rfl
  have hn : (recorded w.calls).length < 2 ^ 64 := by
    rw [hlen]
    decide
  obtain ⟨_, hall⟩ := updates_not_lost exponent_spec hw hn
  obtain ⟨hcount, hbuckets, hsum, hmin, hmax, hvalue⟩ := hall hdone
  rw [hlen] at hcount hbuckets
  rw [hrecorded] at hsum hmin hmax
  rw [hadded] at hvalue
  refine ⟨w, hw, hn, hdone, hcount, hbuckets, ?_, ?_, ?_, ?_⟩
  · rw [hsum]
    norm_num
  · rw [hmin]
    decide +kernel
  · rw [hmax]
    decide +kernel
  · rw [hvalue]
    norm_num

/-! ### When `count` wraps

`count` and the buckets are 64-bit words, and `2 ^ 64` Records bring `count` back to zero.
If they are spread over two buckets, no bucket has wrapped. The run below makes the Records
one after the other, so it needs no luck, only time. -/

section

variable {ilogb : Double → Int}

variable (ilogb) in
/-- The last call made goes on alone. No other call moves meanwhile, so its accesses follow
each other. -/
theorem exec_alone (v : FiniteDouble) (calls : List Call) (n : Nat) (m : Mem) (t : RecordPc ⊕ Unit) :
    ∃ ls, Run.exec (step ilogb) ⟨m, calls ++ [.record v t]⟩ ls =
      some ⟨((record ilogb v false).alone n m t).1,
        calls ++ [.record v ((record ilogb v false).alone n m t).2]⟩ := by
  induction n generalizing m t with
  | zero => exact ⟨[], rfl⟩
  | succ n ih =>
      cases t with
      | inr u => exact ⟨[], by rw [Code.alone_inr]; rfl⟩
      | inl pc =>
          obtain ⟨ls, hls⟩ := ih ((record ilogb v false pc).exec m).1
            ((record ilogb v false pc).exec m).2
          refine ⟨.access calls.length false :: ls, Run.exec_cons_eq_some.mpr ⟨_, ?_, hls⟩⟩
          have hlast : (calls ++ [Call.record v (.inl pc)])[calls.length]? =
              some (.record v (.inl pc)) := by simp
          simp only [step, Option.bind_some, Option.bind_eq_bind, hlast, Call.access]
          rw [List.set_append_right _ _ (Nat.le_refl _), Nat.sub_self]
          rfl

/-- Alone, a `Record` completes after at most eight accesses. -/
theorem record_alone (v : FiniteDouble) (m : Mem) :
    ((record ilogb v false).alone 8 m (.inl .count)).2 = .inr () := by
  by_cases hmin : (v.val : WithTop ℚ) < m .min <;> by_cases hmax : m .max < (v.val : WithBot ℚ) <;>
    simp [Code.alone, record, Access.exec, Access.compareExchangeWeak, checkMin, checkMax, hmin, hmax]

variable (ilogb) in
/-- Any Records can be made one after the other. -/
theorem exec_completed (vs : List FiniteDouble) :
    ∃ ls m, Run.exec (step ilogb) World.initial ls =
      some ⟨m, vs.map fun v => .record v (.inr ())⟩ := by
  induction vs using List.reverseRecOn with
  | nil => exact ⟨[], constructed, rfl⟩
  | append_singleton vs v ih =>
      obtain ⟨ls, m, hls⟩ := ih
      obtain ⟨ls', hls'⟩ := exec_alone ilogb v (vs.map fun v => .record v (.inr ())) 8 m
        (.inl .count)
      rw [record_alone] at hls'
      refine ⟨ls ++ .record v :: ls', ((record ilogb v false).alone 8 m (.inl .count)).1, ?_⟩
      rw [List.map_append, List.map_singleton]
      exact Run.exec_append hls (Run.exec_cons_eq_some.mpr ⟨_, rfl, hls'⟩)

end

/-- Of `2n` completed Records one half is in bucket 0, and the other is not. -/
theorem exec_spread (n : Nat) :
    ∃ ls w, Run.exec (step exponent) World.initial ls = some w ∧
      (∀ c ∈ w.calls, c.completed = true) ∧ (recorded w.calls).length = n + n ∧
      w.mem .count = .ofNat (n + n) ∧ w.mem (.buckets 0) = .ofNat n := by
  obtain ⟨ls, m, hrun⟩ := exec_completed exponent
    (List.replicate n minusThree ++ List.replicate n one)
  have hrecorded : ∀ vs : List FiniteDouble,
      recorded (vs.map fun v => .record v (.inr ())) = vs := by
    intro vs
    rw [recorded, List.filterMap_map]
    exact List.filterMap_some
  have hdone : ∀ c ∈ (List.replicate n minusThree ++ List.replicate n one).map
      fun v => Call.record v (.inr ()), c.completed = true := by
    intro c hc
    obtain ⟨v, -, rfl⟩ := List.mem_map.mp hc
    rfl
  have hw := Books.exec hrun
  have hzero : bucketIndex exponent minusThree = 0 := by decide +kernel
  have hone : bucketIndex exponent one ≠ 0 := by decide +kernel
  refine ⟨ls, _, hrun, hdone, ?_, ?_, ?_⟩
  · rw [hrecorded, List.length_append, List.length_replicate, List.length_replicate]
  · rw [hw.count, total_share Nat.zero_add (by decide) _ hdone, foldr_one, hrecorded,
      List.length_append, List.length_replicate, List.length_replicate]
  · rw [hw.buckets, total_share Nat.zero_add (by decide) _ hdone, hrecorded]
    congr 1
    rw [List.map_append, List.map_replicate, List.map_replicate, if_pos hzero, if_neg hone,
      ← List.sum_eq_foldr, List.sum_append, List.sum_replicate, List.sum_replicate]
    simp

theorem World.le_bucketSum (w : World) {i : Nat} (hi : i < kHistogramBuckets) :
    (w.mem (.buckets i)).toNat ≤ w.bucketSum :=
  Finset.single_le_sum (f := fun i => (w.mem (.buckets i)).toNat) (fun _ _ => Nat.zero_le _)
    (Finset.mem_range.mpr hi)

/-- After `2 ^ 64` completed Records, half of them in bucket 0, `count` is back at zero:
the buckets hold more than that, and it is not the number of Records. -/
theorem bucketSum_gt_count :
    ExponentOf exponent ∧ ∃ ls w, Run.exec (step exponent) World.initial ls = some w ∧
      (∀ c ∈ w.calls, c.completed = true) ∧ (w.mem .count).toNat < w.bucketSum ∧
      (w.mem .count).toNat ≠ (recorded w.calls).length := by
  obtain ⟨ls, w, hrun, hdone, hlen, hcount, hbucket⟩ := exec_spread (2 ^ 63)
  have hwrap : (w.mem .count).toNat = 0 := by
    rw [hcount]
    decide
  have hhalf : (w.mem (.buckets 0)).toNat = 2 ^ 63 := by
    rw [hbucket]
    decide
  refine ⟨exponent_spec, ls, w, hrun, hdone, ?_, ?_⟩
  · have hle := w.le_bucketSum (i := 0) (by decide)
    rw [hhalf] at hle
    rw [hwrap]
    exact Nat.lt_of_lt_of_le (by decide) hle
  · rw [hwrap, hlen]
    decide

end XmBase.Telemetry.MetricSlots
