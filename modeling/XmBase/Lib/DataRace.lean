import XmBase.Lib.WeakMemory
/-!
# XmBase.Lib.DataRace

**Plain locations, and when accesses to them race.** Beside every location there is the
record of its plain reads, one mark each. A plain access may only be made by a thread that
has seen everything it conflicts with: for a read all the writes, for a write all the writes
and the marks of all the reads. Views are what happens-before leaves behind in a thread, so
an access that is made without that races with the one it has not seen, and the program has
no meaning from there on. Without a race a plain read finds the last write.
-/

namespace XmBase.WeakMemory

open Atomic (Access)

variable {Loc : Type*} {Val : Loc → Type*} {τ : Type*}

/-- A location, or the record of its plain reads. With the reads in the modification order
of a place of their own, "this read happened before" is a bound on a view, as it is for a
write. -/
abbrev Place (Loc : Type*) := Loc ⊕ Loc

/-- A mark holds nothing. -/
abbrev Marked (Val : Loc → Type*) : Place Loc → Type _ := Sum.elim Val fun _ => PUnit

/-- The access, at its location. -/
def lift : Access Val τ → Access (Marked Val) τ
  | .load l k => .load (.inl l) k
  | .store l x s => .store (.inl l) x s
  | .rmw l f k => .rmw (.inl l) f k

/-- Nothing has been read yet. -/
def History.unread (m : Atomic.Mem Val) : History (Marked Val)
  | .inl l => [⟨m l, ⊥⟩]
  | .inr _ => [⟨PUnit.unit, ⊥⟩]

variable [DecidableEq Loc]

/-- A plain access. The flag is set if it races. A read returns the last write and leaves a
mark; it races if its thread has not seen that write. A write races if its thread has not
seen the last write or the last mark. -/
def performPlain (h : History (Marked Val)) (v : ThreadView (Place Loc)) :
    Access Val τ → Option (History (Marked Val) × ThreadView (Place Loc) × τ × Bool)
  | .load l k =>
      (h (.inl l)).getLast?.map fun m =>
        (Function.update h (.inr l)
            (h (.inr l) ++ [⟨PUnit.unit, v.released .relaxed (.inr l) (h (.inr l)).length⟩]),
          v.see .relaxed (.inr l) (h (.inr l)).length ⊥, k m.value,
          decide (v.cur (.inl l) + 1 < (h (.inl l)).length))
  | .store l x s =>
      some (Function.update h (.inl l)
          (h (.inl l) ++ [⟨x, v.released .relaxed (.inl l) (h (.inl l)).length⟩]),
        v.see .relaxed (.inl l) (h (.inl l)).length ⊥, s,
        decide (v.cur (.inl l) + 1 < (h (.inl l)).length ∨ v.cur (.inr l) + 1 < (h (.inr l)).length))
  | .rmw .. => none

/-- An access of a program in which the locations `plain` are no atomics. Atomics are
performed as ever, and never race. -/
def performIn (plain : Loc → Bool) (o : Order) (t : Nat) (h : History (Marked Val))
    (v : ThreadView (Place Loc)) (a : Access Val τ) :
    Option (History (Marked Val) × ThreadView (Place Loc) × τ × Bool) :=
  let l := match a with
    | .load l _ | .store l _ _ | .rmw l _ _ => l
  if plain l then performPlain h v a
  else (perform o t h v (lift a)).map fun (h, v, s) => (h, v, s, false)

section

variable {plain : Loc → Bool} {o : Order} {t : Nat} {h h' : History (Marked Val)}
  {v v' : ThreadView (Place Loc)} {l : Loc} {s : τ} {raced : Bool}

/-- An atomic load. It is what `perform` says, and nothing races. -/
theorem performIn_load {k : Val l → τ} (hl : plain l = false)
    (hp : performIn plain o t h v (.load l k) = some (h', v', s, raced)) :
    ∃ m, (h (.inl l))[t]? = some m ∧ v.start o (.inl l) ≤ t ∧ h' = h ∧
      v' = v.see o (.inl l) t m.view ∧ s = k m.value ∧ raced = false := by
  simp only [performIn, hl, Bool.false_eq_true, if_false] at hp
  obtain ⟨⟨h₁, v₁, s₁⟩, hp, heq⟩ := Option.map_eq_some_iff.mp hp
  obtain ⟨m, hm, hle, rfl, rfl, rfl⟩ := perform_load hp
  obtain ⟨rfl, rfl, rfl, rfl⟩ := by simpa using heq
  exact ⟨m, hm, hle, rfl, rfl, rfl, rfl⟩

/-- An atomic store. -/
theorem performIn_store {x : Val l} {s₀ : τ} (hl : plain l = false)
    (hp : performIn plain o t h v (.store l x s₀) = some (h', v', s, raced)) :
    h' = Function.update h (.inl l)
        (h (.inl l) ++ [⟨x, v.released o (.inl l) (h (.inl l)).length⟩]) ∧
      v' = v.see o (.inl l) (h (.inl l)).length ⊥ ∧ s = s₀ ∧ raced = false := by
  simp only [performIn, hl, Bool.false_eq_true, if_false] at hp
  obtain ⟨⟨h₁, v₁, s₁⟩, hp, heq⟩ := Option.map_eq_some_iff.mp hp
  obtain ⟨rfl, rfl, rfl⟩ := perform_store hp
  obtain ⟨rfl, rfl, rfl, rfl⟩ := by simpa using heq
  exact ⟨rfl, rfl, rfl, rfl⟩

/-- A plain read by a thread that has seen the writes. It finds the last write, and nothing
is raced. -/
theorem performIn_read {k : Val l → τ} (hl : plain l = true) (hw : UpToDate h v (.inl l))
    (hp : performIn plain o t h v (.load l k) = some (h', v', s, raced)) :
    ∃ m, (h (.inl l)).getLast? = some m ∧
      h' = Function.update h (.inr l)
        (h (.inr l) ++ [⟨PUnit.unit, v.released .relaxed (.inr l) (h (.inr l)).length⟩]) ∧
      v' = v.see .relaxed (.inr l) (h (.inr l)).length ⊥ ∧ s = k m.value ∧ raced = false := by
  simp only [performIn, hl, if_true, performPlain] at hp
  obtain ⟨m, hm, heq⟩ := Option.map_eq_some_iff.mp hp
  obtain ⟨rfl, rfl, rfl, rfl⟩ := by simpa only [Prod.mk.injEq] using heq
  exact ⟨m, hm, rfl, rfl, rfl, decide_eq_false (Nat.not_lt.mpr hw)⟩

/-- A plain write by a thread that has seen the writes and the reads. -/
theorem performIn_write {x : Val l} {s₀ : τ} (hl : plain l = true) (hw : UpToDate h v (.inl l))
    (hr : UpToDate h v (.inr l))
    (hp : performIn plain o t h v (.store l x s₀) = some (h', v', s, raced)) :
    h' = Function.update h (.inl l)
        (h (.inl l) ++ [⟨x, v.released .relaxed (.inl l) (h (.inl l)).length⟩]) ∧
      v' = v.see .relaxed (.inl l) (h (.inl l)).length ⊥ ∧ s = s₀ ∧ raced = false := by
  simp only [performIn, hl, if_true, performPlain] at hp
  obtain ⟨rfl, rfl, rfl, rfl⟩ := by simpa only [Option.some.injEq, Prod.mk.injEq] using hp
  refine ⟨rfl, rfl, rfl, decide_eq_false ?_⟩
  rw [not_or]
  exact ⟨Nat.not_lt.mpr hw, Nat.not_lt.mpr hr⟩

end

end XmBase.WeakMemory
