import XmBase.Lib.Mixer
import XmBase.Telemetry.TraceForest
/-!
# XmBase.Telemetry.Ids

The ids one thread mints: `NextId` (`telemetry_unbound.cpp`) and `NewTrace`
(`telemetry/context.hpp`). The state moves by an odd stride and the mix loses nothing, so
the mixed words of the first 2⁶⁴ calls are distinct. Only the last step, which gives out
`1` in place of `0`, merges two of them.
-/

namespace XmBase.Telemetry

open Mixer

/-! ### The generator as a counter and a mix

Each step of the mix can be undone, and the counter has the full period, so the words are
all different as long as the state has not come round. -/

/-- What `NextId` adds to the state. -/
def stride : UInt64 := 0x9E3779B97F4A7C15

/-- The mix of `NextId`, before zero is replaced. -/
def mix (z : UInt64) : UInt64 :=
  let z := (z ^^^ (z >>> 30)) * 0xBF58476D1CE4E5B9
  let z := (z ^^^ (z >>> 27)) * 0x94D049BB133111EB
  z ^^^ (z >>> 31)

theorem nextId_eq (state : UInt64) :
    nextId state =
      (if mix (state + stride) != 0 then mix (state + stride) else 1, state + stride) :=
  rfl

/-- The words the mix goes through are those of `Mixer`. -/
theorem toBitVec_mix (z : UInt64) :
    (mix z).toBitVec =
      xorShift 31 (xorShift 27 (xorShift 30 z.toBitVec * 0xBF58476D1CE4E5B9#64) *
        0x94D049BB133111EB#64) :=
  rfl

theorem mix_injective : Function.Injective mix := by
  intro x y h
  have hbits := congrArg UInt64.toBitVec h
  rw [toBitVec_mix, toBitVec_mix] at hbits
  have h1 := xorShift_injective (by decide) hbits
  have h2 := xorShift_injective (by decide) (mul_odd_injective (by decide) h1)
  exact UInt64.toBitVec_inj.mp (xorShift_injective (by decide) (mul_odd_injective (by decide) h2))

theorem toBitVec_afterIds (seed : UInt64) (k : Nat) :
    (afterIds seed k).toBitVec = seed.toBitVec + BitVec.ofNat 64 k * stride.toBitVec := by
  induction k with
  | zero => simp [afterIds]
  | succ k ih =>
      have hstep : (afterIds seed (k + 1)).toBitVec = (afterIds seed k).toBitVec + stride.toBitVec :=
        rfl
      rw [hstep, ih, BitVec.ofNat_add, BitVec.add_mul, BitVec.add_assoc]
      simp

/-- The state does not come back within 2⁶⁴ calls. The stride is odd, so it is a generator
of the words under addition. -/
theorem afterIds_injOn (seed : UInt64) {i j : Nat} (hi : i < 2 ^ 64) (hj : j < 2 ^ 64)
    (h : afterIds seed i = afterIds seed j) : i = j := by
  have hbits := congrArg UInt64.toBitVec h
  rw [toBitVec_afterIds, toBitVec_afterIds] at hbits
  exact stride_injOn (by decide) _ hi hj hbits

/-- The `k`-th word before zero is replaced. -/
def nthMix (seed : UInt64) (k : Nat) : UInt64 := mix (afterIds seed k + stride)

theorem nthMix_injOn (seed : UInt64) {i j : Nat} (hi : i < 2 ^ 64) (hj : j < 2 ^ 64)
    (h : nthMix seed i = nthMix seed j) : i = j :=
  afterIds_injOn seed hi hj ((UInt64.add_left_inj stride).mp (mix_injective h))

theorem nthId_eq (seed : UInt64) (k : Nat) :
    nthId seed k = if nthMix seed k != 0 then nthMix seed k else 1 := by
  rw [nthId, nextId_eq]
  rfl

theorem nthId_ne_zero (seed : UInt64) (k : Nat) : nthId seed k ≠ 0 := nextId_ne_zero _

theorem nthMix_of_nthId_eq_one {seed : UInt64} {k : Nat} (h : nthId seed k = 1) :
    nthMix seed k = 0 ∨ nthMix seed k = 1 := by
  rw [nthId_eq] at h
  split at h
  · exact Or.inr h
  · next hz => exact Or.inl (by simpa using hz)

/-! ### Repeated ids

Zero is given out as one. So an id can come twice, but only that one, and only twice. -/

/-- An id repeats only as the `1` that stands in for zero. -/
theorem nthId_eq_one_of_eq (seed : UInt64) {i j : Nat} (hi : i < 2 ^ 64) (hj : j < 2 ^ 64)
    (hij : i ≠ j) (h : nthId seed i = nthId seed j) : nthId seed i = 1 := by
  have hne : nthMix seed i ≠ nthMix seed j := fun hmix => hij (nthMix_injOn seed hi hj hmix)
  rw [nthId_eq, nthId_eq] at h
  rw [nthId_eq]
  split at h
  · split at h
    · exact absurd h hne
    · next hz _ => rw [if_pos hz]; exact h
  · next hz => rw [if_neg hz]

/-- Of three calls at most two return `1`: the mixed word of each is `0` or `1`. -/
theorem not_three_ones (seed : UInt64) {i j k : Nat} (hij : i < j) (hjk : j < k) (hk : k < 2 ^ 64)
    (h1 : nthId seed i = 1) (h2 : nthId seed j = 1) (h3 : nthId seed k = 1) : False := by
  have hne {a b : Nat} (hab : a < b) (hb : b ≤ k) : nthMix seed a ≠ nthMix seed b := fun h =>
    hab.ne (nthMix_injOn seed ((hab.trans_le hb).trans hk) (hb.trans_lt hk) h)
  have n1 := hne hij hjk.le
  have n2 := hne hjk le_rfl
  have n3 := hne (hij.trans hjk) le_rfl
  rcases nthMix_of_nthId_eq_one h1 with e1 | e1 <;>
    rcases nthMix_of_nthId_eq_one h2 with e2 | e2 <;>
    rcases nthMix_of_nthId_eq_one h3 with e3 | e3 <;>
    simp_all

/-! ### Traces

A trace takes two ids in a row, and the two halves of another one are another two in a row.
For the traces to be equal both halves would have to be the repeated one. -/

/-- `NewTrace()`. -/
def newTrace (ids : UInt64) : Context × UInt64 :=
  let (hi, ids) := nextId ids
  let (lo, ids) := nextId ids
  let (span, ids) := nextId ids
  (⟨⟨hi, lo⟩, ⟨span⟩⟩, ids)

/-- A use of the thread's generator. -/
inductive Minting where
  | newTrace
  /-- An id taken by something else on the thread, such as a span. -/
  | nextId
  deriving DecidableEq, Repr

/-- The number of ids a use takes. -/
def Minting.ids : Minting → Nat
  | .newTrace => 3
  | .nextId => 1

/-- The trace a use mints, if it is one, and the state of the generator after it. -/
def Minting.run (ids : UInt64) : Minting → Option Context × UInt64
  | .newTrace =>
      let (ctx, ids) := Telemetry.newTrace ids
      (some ctx, ids)
  | .nextId => (none, (Telemetry.nextId ids).2)

/-- What the `NewTrace` calls among the thread's uses return, in order. -/
def minted (ids : UInt64) : List Minting → List Context
  | [] => []
  | use :: uses => (use.run ids).1.toList ++ minted (use.run ids).2 uses

theorem run_newTrace (ids : UInt64) :
    Minting.newTrace.run ids =
      (some ⟨⟨nthId ids 0, nthId ids 1⟩, ⟨nthId ids 2⟩⟩, afterIds ids 3) :=
  rfl

theorem run_nextId (ids : UInt64) : Minting.nextId.run ids = (none, afterIds ids 1) := rfl

theorem afterIds_add (seed : UInt64) (k n : Nat) :
    afterIds (afterIds seed k) n = afterIds seed (k + n) := by
  induction n with
  | zero => rfl
  | succ n ih => rw [afterIds, ih, ← Nat.add_assoc, afterIds]

theorem nthId_afterIds (seed : UInt64) (k n : Nat) :
    nthId (afterIds seed k) n = nthId seed (k + n) := by
  rw [nthId, afterIds_add, nthId]

theorem minted_newTrace (seed : UInt64) (k : Nat) (uses : List Minting) :
    minted (afterIds seed k) (.newTrace :: uses) =
      ⟨⟨nthId seed k, nthId seed (k + 1)⟩, ⟨nthId seed (k + 2)⟩⟩ ::
        minted (afterIds seed (k + 3)) uses := by
  rw [minted, run_newTrace, nthId_afterIds, nthId_afterIds, nthId_afterIds, afterIds_add]
  rfl

theorem minted_nextId (seed : UInt64) (k : Nat) (uses : List Minting) :
    minted (afterIds seed k) (.nextId :: uses) = minted (afterIds seed (k + 1)) uses := by
  rw [minted, run_nextId, afterIds_add]
  rfl

/-- A trace minted after `k` ids is made of two consecutive ids, from the `k`-th on. -/
theorem exists_position_of_mem_minted {seed : UInt64} {uses : List Minting} {k : Nat} {c : Context}
    (hc : c ∈ minted (afterIds seed k) uses) :
    ∃ p, k ≤ p ∧ p + 2 < k + (uses.map Minting.ids).sum ∧
      c.trace = ⟨nthId seed p, nthId seed (p + 1)⟩ := by
  induction uses generalizing k with
  | nil => nomatch hc
  | cons use uses ih =>
      rw [List.map_cons, List.sum_cons]
      cases use with
      | newTrace =>
          rw [minted_newTrace, List.mem_cons] at hc
          simp only [Minting.ids]
          rcases hc with hc | hc
          · exact ⟨k, le_rfl, by omega, by rw [hc]⟩
          · obtain ⟨p, hkp, hp, htrace⟩ := ih hc
            exact ⟨p, by omega, by omega, htrace⟩
      | nextId =>
          rw [minted_nextId] at hc
          simp only [Minting.ids]
          obtain ⟨p, hkp, hp, htrace⟩ := ih hc
          exact ⟨p, by omega, by omega, htrace⟩

/-- Two disjoint pairs of consecutive ids differ. -/
theorem pair_ne (seed : UInt64) {p q : Nat} (hpq : p + 1 < q) (hq : q + 1 < 2 ^ 64) :
    (⟨nthId seed p, nthId seed (p + 1)⟩ : TraceId) ≠ ⟨nthId seed q, nthId seed (q + 1)⟩ := by
  intro h
  obtain ⟨hhi, hlo⟩ := TraceId.mk.inj h
  have h1 := nthId_eq_one_of_eq seed (by omega) (by omega) (by omega) hhi
  have h2 := nthId_eq_one_of_eq seed (by omega) (by omega) (by omega) hlo
  exact not_three_ones seed (Nat.lt_succ_self p) hpq (by omega) h1 h2 (hhi.symm.trans h1)

theorem nodup_minted (seed : UInt64) (uses : List Minting) {k : Nat}
    (hk : k + (uses.map Minting.ids).sum < 2 ^ 64) :
    ((minted (afterIds seed k) uses).map Context.trace).Nodup := by
  induction uses generalizing k with
  | nil => exact List.nodup_nil
  | cons use uses ih =>
      rw [List.map_cons, List.sum_cons, ← Nat.add_assoc] at hk
      cases use with
      | newTrace =>
          rw [minted_newTrace, List.map_cons, List.nodup_cons]
          refine ⟨fun hmem => ?_, ih hk⟩
          obtain ⟨c, hc, heq⟩ := List.mem_map.mp hmem
          obtain ⟨p, hkp, hp, htrace⟩ := exists_position_of_mem_minted hc
          simp only [Minting.ids] at hk
          exact pair_ne seed (by omega) (by omega) (heq.symm.trans htrace)
      | nextId =>
          rw [minted_nextId]
          exact ih hk

/-- **Ids minted on one thread do not repeat**: among 2⁶⁴ calls, none returns zero and two
return the same only if both return `1`; the traces of one thread differ from each other.
The second half needs the ids of its traces to be among the first `2 ^ 62`, so that the
state does not come round in between. -/
theorem ids_do_not_repeat (seed : UInt64) :
    (∀ i j, i < 2 ^ 64 → j < 2 ^ 64 → i ≠ j →
      nthId seed i ≠ 0 ∧ nthId seed j ≠ 0 ∧
        (nthId seed i = nthId seed j → nthId seed i = 1 ∧ nthId seed j = 1)) ∧
    ∀ uses : List Minting, (uses.map Minting.ids).sum ≤ 2 ^ 62 →
      ((minted seed uses).map Context.trace).Nodup := by
  refine ⟨fun i j hi hj hij => ⟨nthId_ne_zero seed i, nthId_ne_zero seed j, fun h => ?_⟩,
    fun uses huses => ?_⟩
  · have hone := nthId_eq_one_of_eq seed hi hj hij h
    exact ⟨hone, h.symm.trans hone⟩
  · refine nodup_minted seed uses (k := 0) ?_
    calc 0 + (uses.map Minting.ids).sum ≤ 2 ^ 62 := by rwa [Nat.zero_add]
      _ < 2 ^ 64 := by decide

/-- A thread that mints two traces with a span's id between them. -/
theorem ids_do_not_repeat_two_traces :
    (nthId 7 0 ≠ 0 ∧ nthId 7 1 ≠ 0 ∧ (nthId 7 0 = nthId 7 1 → nthId 7 0 = 1 ∧ nthId 7 1 = 1)) ∧
      ((minted 7 [.newTrace, .nextId, .newTrace]).map Context.trace).Nodup :=
  ⟨(ids_do_not_repeat 7).1 0 1 (by decide) (by decide) (by decide),
    (ids_do_not_repeat 7).2 [.newTrace, .nextId, .newTrace] (by decide)⟩

end XmBase.Telemetry
