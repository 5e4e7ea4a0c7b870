import Mathlib.Logic.Function.Basic
/-!
# XmBase.Lib.Atomic

**Threads at the granularity of single atomic accesses.** Shared memory is a
dependent function from locations to values. A thread with local state `τ` is
always about to perform exactly one `Access`; what it does next is a function
of the value the access returned. A routine is a `Code`: from each local state
one access, after which the thread either goes on (`Sum.inl`) or returns
(`Sum.inr`). Loops are cycles in the local state, so routines without a static
bound are ordinary definitions.

Because an access is the unit, an interleaving semantics only has to pick whose
access comes next (sequential consistency), and `Code.alone` is the special
case in which the same thread is picked every time.
-/

namespace XmBase.Atomic

variable {Loc : Type*} {Val : Loc → Type*} {σ τ υ α β : Type*}

/-- The contents of the shared locations. -/
abbrev Mem (Val : Loc → Type*) := (l : Loc) → Val l

/-- One atomic access together with the local continuation. The value is chosen by the
memory, so a load continues with a function. -/
inductive Access (Val : Loc → Type*) (τ : Type*)
  | load (l : Loc) (k : Val l → τ)
  | store (l : Loc) (v : Val l) (t : τ)
  /-- Read-modify-write: the continuation receives the old value. -/
  | rmw (l : Loc) (f : Val l → Val l) (k : Val l → τ)

namespace Access

/-- Perform the access. This is sequential consistency: a load finds what the location holds
now. -/
def exec [DecidableEq Loc] (m : Mem Val) : Access Val τ → Mem Val × τ
  | .load l k => (m, k (m l))
  | .store l v t => (Function.update m l v, t)
  | .rmw l f k => (Function.update m l (f (m l)), k (m l))

/-- `compare_exchange_weak`: writes `desired` over `expected`, and may fail even
where it finds `expected`; a failed one goes on with the value it found. -/
def compareExchangeWeak (l : Loc) [DecidableEq (Val l)] (spurious : Bool) (expected desired : Val l)
    (success : τ) (failure : Val l → τ) : Access Val τ :=
  .rmw l (fun found => if found = expected ∧ spurious = false then desired else found)
    (fun found => if found = expected ∧ spurious = false then success else failure found)

/-- Post-compose the continuation. -/
def map (f : τ → υ) : Access Val τ → Access Val υ
  | .load l k => .load l fun v => f (k v)
  | .store l v t => .store l v (f t)
  | .rmw l g k => .rmw l g fun v => f (k v)

variable [DecidableEq Loc]

@[simp] theorem exec_load (m : Mem Val) (l : Loc) (k : Val l → τ) :
    (load l k).exec m = (m, k (m l)) := rfl

@[simp] theorem exec_store (m : Mem Val) (l : Loc) (v : Val l) (t : τ) :
    (store l v t).exec m = (Function.update m l v, t) := rfl

@[simp] theorem exec_rmw (m : Mem Val) (l : Loc) (f : Val l → Val l) (k : Val l → τ) :
    (rmw l f k).exec m = (Function.update m l (f (m l)), k (m l)) := rfl

/-- It either succeeds on the value it expects, or changes nothing. -/
theorem exec_compareExchangeWeak (m : Mem Val) (l : Loc) [DecidableEq (Val l)] (spurious : Bool)
    (expected desired : Val l) (success : τ) (failure : Val l → τ) :
    (m l = expected ∧ (compareExchangeWeak l spurious expected desired success failure).exec m =
      (Function.update m l desired, success)) ∨
    (compareExchangeWeak l spurious expected desired success failure).exec m =
      (m, failure (m l)) := by
  rw [compareExchangeWeak, exec_rmw]
  by_cases h : m l = expected ∧ spurious = false
  · rw [if_pos h, if_pos h]
    exact .inl ⟨h.1, rfl⟩
  · rw [if_neg h, if_neg h, Function.update_eq_self]
    exact .inr rfl

@[simp] theorem exec_map (m : Mem Val) (f : τ → υ) (a : Access Val τ) :
    (a.map f).exec m = ((a.exec m).1, f (a.exec m).2) := by
  cases a <;> rfl

end Access

/-- A routine: from each local state one access, then go on or return. A routine that is
called from another one is mapped into its local states by `Access.map`. -/
abbrev Code (Val : Loc → Type*) (σ α : Type*) := σ → Access Val (σ ⊕ α)

namespace Code

variable [DecidableEq Loc]

/-- Run the routine for up to `n` accesses with nobody else moving. -/
def alone (code : Code Val σ α) : Nat → Mem Val → σ ⊕ α → Mem Val × (σ ⊕ α)
  | 0, m, t => (m, t)
  | _ + 1, m, .inr a => (m, .inr a)
  | n + 1, m, .inl s => alone code n ((code s).exec m).1 ((code s).exec m).2

@[simp] theorem alone_zero (code : Code Val σ α) (m : Mem Val) (t : σ ⊕ α) :
    code.alone 0 m t = (m, t) := rfl

@[simp] theorem alone_inr (code : Code Val σ α) (n : Nat) (m : Mem Val) (a : α) :
    code.alone n m (.inr a) = (m, .inr a) := by
  cases n <;> rfl

theorem alone_succ (code : Code Val σ α) (n : Nat) (m : Mem Val) (s : σ) :
    code.alone (n + 1) m (.inl s) =
      code.alone n ((code s).exec m).1 ((code s).exec m).2 := rfl

/-- Solo runs compose. So a run can be followed access by access, or routine by routine. -/
theorem alone_add (code : Code Val σ α) (n k : Nat) :
    ∀ (m : Mem Val) (t : σ ⊕ α),
      code.alone (n + k) m t = code.alone k (code.alone n m t).1 (code.alone n m t).2 := by
  induction n with
  | zero => intro m t; simp
  | succ n ih =>
      intro m t
      cases t with
      | inr a => simp
      | inl s =>
          rw [show n + 1 + k = (n + k) + 1 by omega, alone_succ, alone_succ, ih]

/-- A routine that has returned stays returned. -/
theorem alone_of_le {code : Code Val σ α} {n k : Nat} {m m' : Mem Val} {t : σ ⊕ α} {a : α}
    (h : code.alone n m t = (m', .inr a)) (hk : n ≤ k) : code.alone k m t = (m', .inr a) := by
  obtain ⟨d, rfl⟩ := Nat.exists_eq_add_of_le hk
  rw [alone_add, h, alone_inr]

/-- Run alone, the routine returns `a` and leaves the memory as `m'`. It is the statement of
a total result: no fuel is left in it. -/
def Returns (code : Code Val σ α) (m : Mem Val) (s : σ) (m' : Mem Val) (a : α) : Prop :=
  ∃ n, code.alone n m (.inl s) = (m', .inr a)

theorem Returns.unique {code : Code Val σ α} {m m₁ m₂ : Mem Val} {s : σ} {a b : α}
    (ha : code.Returns m s m₁ a) (hb : code.Returns m s m₂ b) : a = b := by
  obtain ⟨n, hn⟩ := ha
  obtain ⟨k, hk⟩ := hb
  have h1 := alone_of_le hn (Nat.le_max_left n k)
  rw [alone_of_le hk (Nat.le_max_right n k)] at h1
  exact (Sum.inr.inj (congrArg Prod.snd h1)).symm

/-- Run alone, the routine returns something with property `P` before it comes
back to a loop head. -/
def ReturnsInRound (code : Code Val σ α) (head : σ → Prop) (m : Mem Val) (s : σ) (P : α → Prop) :
    Prop :=
  ∃ n m' a, code.alone n m (.inl s) = (m', .inr a) ∧ P a ∧
    ∀ k, 0 < k → k < n → ∀ s', (code.alone k m (.inl s)).2 = .inl s' → ¬ head s'

/-- A solo run that returns something else did not return in its round. -/
theorem not_returnsInRound_of_returns {code : Code Val σ α} {head : σ → Prop} {m m' : Mem Val}
    {s : σ} {P : α → Prop} {a : α} (h : code.Returns m s m' a) (hP : ¬ P a) :
    ¬ code.ReturnsInRound head m s P := by
  rintro ⟨n, m'', a', hret, hPa, -⟩
  obtain rfl := h.unique ⟨n, hret⟩
  exact hP hPa

/-- A solo run that is back at a loop head did not return in its round. Running alone is
deterministic, so it cannot do both. -/
theorem not_returnsInRound {code : Code Val σ α} {head : σ → Prop} {m m' : Mem Val} {s s' : σ}
    {P : α → Prop} {k : Nat} (hk : 0 < k) (h : code.alone k m (.inl s) = (m', .inl s'))
    (hhead : head s') : ¬ code.ReturnsInRound head m s P := by
  rintro ⟨n, m'', a, hret, -, hround⟩
  rcases Nat.lt_or_ge k n with hlt | hge
  · exact hround k hk hlt s' (by rw [h]) hhead
  · rw [alone_of_le hret hge] at h
    cases congrArg Prod.snd h

/-! ### Against an arbitrary memory

A routine among others it knows nothing of: the memory may be another one at each access.
What can be shown of a routine in that generality, it does under every interleaving with any
other code, and the accesses of one kind can be counted along the way. -/

/-- Run the routine for `n` accesses while everybody else does anything at all: its
access number `k` finds the memory `env k`. -/
def against (code : Code Val σ α) (env : Nat → Mem Val) (t : σ ⊕ α) : Nat → σ ⊕ α
  | 0 => t
  | n + 1 =>
      match against code env t n with
      | .inl s => ((code s).exec (env n)).2
      | .inr a => .inr a

/-- How many of the first `n` accesses are made in a local state, and on a memory, of the
given kind. -/
def visits (code : Code Val σ α) (env : Nat → Mem Val) (t : σ ⊕ α) (kind : σ → Mem Val → Bool) :
    Nat → Nat
  | 0 => 0
  | n + 1 =>
      visits code env t kind n +
        match against code env t n with
        | .inl s => if kind s (env n) then 1 else 0
        | .inr _ => 0

/-- A routine whose local states count down, whatever its accesses find, returns. The
measure goes down at every access, so it bounds their number. -/
theorem exists_against_inr {code : Code Val σ α} (valid : σ → Prop) (measure : σ → Nat)
    (hstep : ∀ s m, valid s → (∃ a, ((code s).exec m).2 = .inr a) ∨
      ∃ s', ((code s).exec m).2 = .inl s' ∧ valid s' ∧ measure s' < measure s)
    {s : σ} (hs : valid s) (env : Nat → Mem Val) :
    ∃ n a, code.against env (.inl s) n = .inr a := by
  have hrun (n : Nat) : (∃ k a, code.against env (.inl s) k = .inr a) ∨
      ∃ s', code.against env (.inl s) n = .inl s' ∧ valid s' ∧ measure s' + n ≤ measure s := by
    induction n with
    | zero => exact .inr ⟨s, rfl, hs, Nat.le_refl _⟩
    | succ n ih =>
        rcases ih with hret | ⟨s', hs', hvalid, hle⟩
        · exact .inl hret
        · have hnext : code.against env (.inl s) (n + 1) = ((code s').exec (env n)).2 := by
            rw [against, hs']
          rcases hstep s' (env n) hvalid with ⟨a, ha⟩ | ⟨s'', hs'', hvalid'', hlt⟩
          · exact .inl ⟨n + 1, a, hnext.trans ha⟩
          · exact .inr ⟨s'', hnext.trans hs'', hvalid'', by omega⟩
  rcases hrun (measure s + 1) with hret | ⟨s', -, -, hle⟩
  · exact hret
  · omega

end Code

end XmBase.Atomic
