import XmBase.Lib.Atomic
import XmBase.Lib.Run
/-!
# XmBase.Telemetry.Binding

Which telemetry binding is active: `InstallBinding` and `ActiveBinding`
(`src/telemetry_unbound.cpp`), run by any number of threads at the granularity of
their accesses to `g_binding` and `g_explicitly_set`.

An explicit install, also of `nullptr`, is meant to be authoritative: the lazy
adoption of the console binding tests the flag first and then goes through a
compare-exchange, "so a concurrent explicit InstallBinding wins". That exchange
expects `nullptr`, which is also what an explicit unbind leaves there: an adopter
that tested the flag before the unbind still succeeds after it. So an install is
authoritative **unless it installs `nullptr` while some thread is about to adopt**
(`installBinding_authoritative_iff`).
-/

namespace XmBase.Telemetry

open XmBase.Atomic

/-- `kBindingAbiVersion`. -/
def kBindingAbiVersion : UInt32 := 3

/-- The tables a `const Binding*` can point to, and the built-in one. -/
structure Env (B : Type) where
  abiVersion : B → UInt32
  /-- `detail::DefaultConsoleBinding()`; `none` when logging is compiled out. -/
  defaultConsoleBinding : Option B

/-- The two globals. -/
inductive Loc
  /-- `g_binding`. -/
  | binding
  /-- `g_explicitly_set`. -/
  | explicitlySet
  deriving DecidableEq, Repr

abbrev Val (B : Type) : Loc → Type
  | .binding => Option B
  | .explicitlySet => Bool

abbrev Mem (B : Type) := Atomic.Mem (Val B)

variable {B : Type}

/-! ### The two functions

Access by access, as the source orders them. What matters is the distance in `ActiveBinding`
between its test of the flag and its exchange. -/

/-- Program counter of `InstallBinding`. -/
inductive InstallPc (B : Type)
  | storeExplicitlySet (binding : Option B)
  | storeBinding (binding : Option B)
  deriving DecidableEq, Repr

/-- Program counter of `ActiveBinding`. -/
inductive ActivePc (B : Type)
  | loadBinding
  | loadExplicitlySet
  /-- The compare-exchange from `nullptr` to the default. -/
  | adopt (def' : B)
  | reload
  deriving DecidableEq, Repr

/-- The version test of `InstallBinding`. -/
def Env.accepts (env : Env B) : Option B → Bool
  | none => true
  | some b => env.abiVersion b = kBindingAbiVersion

/-- Enter `InstallBinding(binding)`: the version test comes before any access. -/
def enterInstall (env : Env B) (binding : Option B) : InstallPc B ⊕ Bool :=
  if env.accepts binding then .inl (.storeExplicitlySet binding) else .inr false

/-- `InstallBinding`, after the version test. -/
def installBinding : Code (Val B) (InstallPc B) Bool
  | .storeExplicitlySet b => .store .explicitlySet true (.inl (.storeBinding b))
  | .storeBinding b => .store .binding b (.inr true)

/-- `ActiveBinding()`. -/
def activeBinding (env : Env B) : Code (Val B) (ActivePc B) (Option B)
  | .loadBinding => .load .binding fun b =>
      match b with
      | some b => .inr (some b)
      | none => .inl .loadExplicitlySet
  | .loadExplicitlySet => .load .explicitlySet fun set =>
      if set then .inr none
      else
        match env.defaultConsoleBinding with
        | some d => .inl (.adopt d)
        | none => .inr none
  -- the outcome of the exchange is not looked at
  | .adopt d => .rmw .binding (fun b => match b with
      | none => some d
      | some b => some b) fun _ => .inl .reload
  | .reload => .load .binding .inr

/-! ### The system

Any number of threads, each inside at most one call. Two history variables are there for the
statement: how many installs had returned when, and with what an `ActiveBinding` was
answered. -/

/-- A thread. `started` counts the installs that had returned `true` when its
`ActiveBinding` was called. -/
inductive Thread (B : Type)
  | idle
  | installing (pc : InstallPc B)
  | installed (ok : Bool)
  | asking (started : Nat) (pc : ActivePc B)
  | answered (started : Nat) (value : Option B)
  deriving DecidableEq, Repr

/-- The thread is inside a call. -/
def Thread.inCall : Thread B → Bool
  | .installing _ | .asking .. => true
  | _ => false

/-- The thread is inside `InstallBinding`. -/
def Thread.inInstall : Thread B → Bool
  | .installing _ => true
  | _ => false

/-- The thread is about to make the adopting compare-exchange. -/
def Thread.aboutToAdopt : Thread B → Bool
  | .asking _ (.adopt _) => true
  | _ => false

structure World (B ι : Type) where
  mem : Mem B
  threads : ι → Thread B
  /-- How many installs have returned `true`. -/
  installs : Nat

/-- The process at its start. -/
def World.init (B ι : Type) : World B ι where
  mem
    | .binding => (none : Option B)
    | .explicitlySet => false
  threads _ := .idle
  installs := 0

/-- Who moves, and how. -/
inductive Label (B ι : Type)
  | callInstall (i : ι) (binding : Option B)
  | callActive (i : ι)
  /-- Thread `i` makes its next access. -/
  | access (i : ι)

variable {ι : Type} [DecidableEq ι]

/-- One step of the system. -/
def World.step (env : Env B) (w : World B ι) : Label B ι → Option (World B ι)
  | .callInstall i binding =>
      if (w.threads i).inCall then none
      else some { w with
        threads := Function.update w.threads i (match enterInstall env binding with
          | .inl pc => .installing pc
          | .inr ok => .installed ok) }
  | .callActive i =>
      if (w.threads i).inCall then none
      else some { w with
        threads := Function.update w.threads i (.asking w.installs .loadBinding) }
  | .access i =>
      match w.threads i with
      | .installing pc => some {
          mem := ((installBinding pc).exec w.mem).1
          threads := Function.update w.threads i (match ((installBinding pc).exec w.mem).2 with
            | .inl pc' => .installing pc'
            | .inr ok => .installed ok)
          installs := match ((installBinding pc).exec w.mem).2 with
            | .inr true => w.installs + 1
            | _ => w.installs }
      | .asking started pc => some { w with
          mem := ((activeBinding env pc).exec w.mem).1
          threads := Function.update w.threads i (match ((activeBinding env pc).exec w.mem).2 with
            | .inl pc' => .asking started pc'
            | .inr value => .answered started value) }
      | _ => none

/-- Run a schedule from the start of the process. -/
def World.run (env : Env B) (ls : List (Label B ι)) : Option (World B ι) :=
  Run.exec (World.step env) (World.init B ι) ls

/-! ### What a step can do -/

/-- Every move of a thread, on memory, install count and thread. -/
inductive Move (env : Env B) : Mem B → Nat → Thread B → Mem B → Nat → Thread B → Prop
  | callInstall (m k t b) (ht : t.inCall = false) (hb : env.accepts b = true) :
      Move env m k t m k (.installing (.storeExplicitlySet b))
  | reject (m k t b) (ht : t.inCall = false) (hb : env.accepts b = false) :
      Move env m k t m k (.installed false)
  | storeExplicitlySet (m k b) :
      Move env m k (.installing (.storeExplicitlySet b))
        (Function.update m .explicitlySet true) k (.installing (.storeBinding b))
  | storeBinding (m k b) :
      Move env m k (.installing (.storeBinding b))
        (Function.update m .binding b) (k + 1) (.installed true)
  | callActive (m k t) (ht : t.inCall = false) :
      Move env m k t m k (.asking k .loadBinding)
  | found (m k s b) (hb : m .binding = some b) :
      Move env m k (.asking s .loadBinding) m k (.answered s (some b))
  | missed (m k s) (hb : m .binding = none) :
      Move env m k (.asking s .loadBinding) m k (.asking s .loadExplicitlySet)
  | decline (m k s) (hs : m .explicitlySet = true ∨ env.defaultConsoleBinding = none) :
      Move env m k (.asking s .loadExplicitlySet) m k (.answered s none)
  | choose (m k s d) (hs : m .explicitlySet = false) (hd : env.defaultConsoleBinding = some d) :
      Move env m k (.asking s .loadExplicitlySet) m k (.asking s (.adopt d))
  | adopt (m k s d) (hb : m .binding = none) :
      Move env m k (.asking s (.adopt d)) (Function.update m .binding (some d)) k
        (.asking s .reload)
  | beaten (m k s d b) (hb : m .binding = some b) :
      Move env m k (.asking s (.adopt d)) m k (.asking s .reload)
  | reload (m k s) :
      Move env m k (.asking s .reload) m k (.answered s (m .binding))

/-- The thread a label moves. -/
def Label.thread : Label B ι → ι
  | .callInstall i _ | .callActive i | .access i => i

/-- The label starts an install that passes the version test. -/
def Label.installs (env : Env B) : Label B ι → Bool
  | .callInstall _ b => env.accepts b
  | _ => false

/-- **Every step is a move of one thread**; only an install's call puts a thread
inside an install. -/
theorem World.step_cases {env : Env B} {w w' : World B ι} {l : Label B ι}
    (h : w.step env l = some w') :
    ∃ t, w'.threads = Function.update w.threads l.thread t ∧
      Move env w.mem w.installs (w.threads l.thread) w'.mem w'.installs t ∧
      (t.inInstall = true → l.installs env = true ∨ (w.threads l.thread).inInstall = true) := by
  cases l with
  | callInstall i b =>
      simp only [World.step] at h
      split at h
      · cases h
      · next hcall =>
        cases h
        refine ⟨_, rfl, ?_⟩
        unfold enterInstall Label.installs
        by_cases hb : env.accepts b
        · rw [if_pos hb]
          exact ⟨.callInstall _ _ _ b (Bool.eq_false_iff.mpr hcall) hb, fun _ => Or.inl hb⟩
        · rw [if_neg hb]
          exact ⟨.reject _ _ _ b (Bool.eq_false_iff.mpr hcall) (Bool.eq_false_iff.mpr hb), fun h => by cases h⟩
  | callActive i =>
      simp only [World.step] at h
      split at h
      · cases h
      · next hcall =>
        cases h
        exact ⟨_, rfl, .callActive _ _ _ (Bool.eq_false_iff.mpr hcall), fun h => by cases h⟩
  | access i =>
      simp only [World.step] at h
      simp only [Label.thread]
      split at h
      · next pc hpc =>
        cases h
        rw [hpc]
        refine ⟨_, rfl, ?_, fun _ => Or.inr rfl⟩
        cases pc with
        | storeExplicitlySet b => exact .storeExplicitlySet _ _ b
        | storeBinding b => exact .storeBinding _ _ b
      · next s pc hpc =>
        cases h
        rw [hpc]
        refine ⟨_, rfl, ?_, ?_⟩
        · cases pc with
          | loadBinding =>
              cases hb : w.mem .binding with
              | none => simpa [activeBinding, hb] using Move.missed _ _ s hb
              | some b => simpa [activeBinding, hb] using Move.found _ _ s b hb
          | loadExplicitlySet =>
              cases hs : w.mem .explicitlySet with
              | true => simpa [activeBinding, hs] using Move.decline _ _ s (Or.inl hs)
              | false =>
                  cases hd : env.defaultConsoleBinding with
                  | none => simpa [activeBinding, hs, hd] using Move.decline _ _ s (Or.inr hd)
                  | some d => simpa [activeBinding, hs, hd] using Move.choose _ _ s d hs hd
          | adopt d =>
              cases hb : w.mem .binding with
              | none => simpa [activeBinding, hb] using Move.adopt _ _ s d hb
              | some b =>
                  -- the exchange fails and leaves the binding that is there
                  have hsame : Function.update w.mem .binding (some b) = w.mem := by
                    rw [← hb]
                    exact Function.update_eq_self _ _
                  simpa [activeBinding, hb, hsame] using Move.beaten _ _ s d b hb
          | reload => exact .reload _ _ s
        · intro hin
          exfalso
          revert hin
          split <;> simp [Thread.inInstall]
      · cases h

/-! ### Starting times

An answer only counts if its call was made after the install had returned. The stamps say
which those are, and once one install has returned the flag is set for good, so that every
later call sees it. -/

/-- When the thread's `ActiveBinding` was called. -/
def Thread.started? : Thread B → Option Nat
  | .asking s _ | .answered s _ => some s
  | _ => none

theorem Move.started_le {env : Env B} {m m' : Mem B} {k k' : Nat} {t t' : Thread B}
    (h : Move env m k t m' k' t') (ht : ∀ s, t.started? = some s → s ≤ k) :
    k ≤ k' ∧ ∀ s, t'.started? = some s → s ≤ k' := by
  cases h with
  | callActive =>
      refine ⟨Nat.le_refl k, ?_⟩
      intro s hs
      cases hs
      exact Nat.le_refl k
  | storeBinding => exact ⟨Nat.le_succ k, fun s hs => by cases hs⟩
  | callInstall | reject | storeExplicitlySet => exact ⟨Nat.le_refl k, fun s hs => by cases hs⟩
  | found | missed | decline | choose | adopt | beaten | reload => exact ⟨Nat.le_refl k, ht⟩

/-- Every call was started at some count of installs up to the present one. -/
theorem World.started_le {env : Env B} {ls : List (Label B ι)} {w : World B ι}
    (h : World.run env ls = some w) :
    ∀ i s, (w.threads i).started? = some s → s ≤ w.installs := by
  refine Run.exec_invariant
    (I := fun w : World B ι => ∀ i s, (w.threads i).started? = some s → s ≤ w.installs)
    ?_ (fun i s hs => by cases hs) h
  intro w l w' hw hstep
  obtain ⟨t, hthreads, hmove, -⟩ := World.step_cases hstep
  obtain ⟨hk, ht⟩ := hmove.started_le (hw l.thread)
  intro i s hs
  rw [hthreads] at hs
  by_cases hi : i = l.thread
  · subst hi
    rw [Function.update_self] at hs
    exact ht s hs
  · rw [Function.update_of_ne hi] at hs
    exact Nat.le_trans (hw i s hs) hk

theorem Move.latched {env : Env B} {m m' : Mem B} {k k' : Nat} {t t' : Thread B}
    (h : Move env m k t m' k' t') :
    (m .explicitlySet = true → m' .explicitlySet = true) ∧
      ∀ b, t' = .installing (.storeBinding b) → m' .explicitlySet = true := by
  cases h with
  | storeExplicitlySet =>
      have hset := Function.update_self (β := Val B) Loc.explicitlySet true m
      exact ⟨fun _ => hset, fun _ _ => hset⟩
  | storeBinding b =>
      refine ⟨fun hset => ?_, fun b' hb => by cases hb⟩
      rw [← hset]
      exact Function.update_of_ne (by decide) _ _
  | adopt =>
      refine ⟨fun hset => ?_, fun b' hb => by cases hb⟩
      rw [← hset]
      exact Function.update_of_ne (by decide) _ _
  | callInstall | reject | callActive | found | missed | decline | choose | beaten | reload =>
      exact ⟨id, fun b' hb => by cases hb⟩

/-- An install stores the flag before the binding, and nothing clears it. -/
theorem World.latched {env : Env B} {ls : List (Label B ι)} {w : World B ι}
    (h : World.run env ls = some w) {i : ι} {b : Option B}
    (hi : w.threads i = .installing (.storeBinding b)) : w.mem .explicitlySet = true := by
  refine Run.exec_invariant
    (I := fun w : World B ι =>
      ∀ i b, w.threads i = .installing (.storeBinding b) → w.mem .explicitlySet = true)
    ?_ (fun i b hi => by cases hi) h i b hi
  intro w l w' hw hstep i b hi
  obtain ⟨t, hthreads, hmove, -⟩ := World.step_cases hstep
  rw [hthreads] at hi
  by_cases hil : i = l.thread
  · subst hil
    rw [Function.update_self] at hi
    exact hmove.latched.2 b hi
  · rw [Function.update_of_ne hil] at hi
    exact hmove.latched.1 (hw i b hi)

/-! ### After the last install

What an install that is not followed by another one leaves behind. A settled world stays
settled, and in it every call answers with the installed binding. The only thing that can be
in the way is a thread that has passed the test of the flag already, and it only matters if
it finds the `nullptr` that it expects. -/

/-- What a thread may be doing once the `k`-th install, of `b`, was the last one. -/
def Thread.Settled (b : Option B) (k : Nat) : Thread B → Prop
  | .installing _ => False
  | .asking s .loadExplicitlySet => k ≤ s → b = none
  | .asking _ (.adopt _) => b ≠ none
  | .answered s value => k ≤ s → value = b
  | _ => True

/-- The `k`-th install, of `b`, was the last one, and nothing is left that could undo it.
This is the invariant of everything that happens after the install. -/
structure World.Settled (b : Option B) (k : Nat) (w : World B ι) : Prop where
  binding : w.mem .binding = b
  explicitlySet : w.mem .explicitlySet = true
  threads : ∀ i, (w.threads i).Settled b k

theorem Move.settled {env : Env B} {b : Option B} {m m' : Mem B} {k k₀ k' : Nat} {t t' : Thread B}
    (h : Move env m k t m' k' t') (hbinding : m .binding = b) (hset : m .explicitlySet = true)
    (ht : t.Settled b k₀) (hin : t'.inInstall = false) :
    m' .binding = b ∧ m' .explicitlySet = true ∧ t'.Settled b k₀ := by
  cases h with
  | callInstall => cases hin
  | storeExplicitlySet | storeBinding => exact ht.elim
  | reject | callActive | beaten => exact ⟨hbinding, hset, trivial⟩
  | found s b' hb => exact ⟨hbinding, hset, fun _ => by rw [← hbinding, hb]⟩
  | missed s hb => exact ⟨hbinding, hset, fun _ => by rw [← hbinding, hb]⟩
  | decline s hs => exact ⟨hbinding, hset, fun hk => (ht hk).symm⟩
  | choose s d hs => rw [hset] at hs; cases hs
  | adopt s d hb => exact absurd (hbinding.symm.trans hb) ht
  | reload => exact ⟨hbinding, hset, fun _ => hbinding⟩

/-- A step that starts no install keeps the world settled. -/
theorem World.Settled.step {env : Env B} {b : Option B} {k : Nat} {w w' : World B ι} {l : Label B ι}
    (hl : l.installs env = false) (hw : w.Settled b k) (h : w.step env l = some w') :
    w'.Settled b k := by
  obtain ⟨t, hthreads, hmove, hin⟩ := World.step_cases h
  have hmine := hw.threads l.thread
  have hnot : t.inInstall = false := by
    refine Bool.eq_false_iff.mpr fun ht => ?_
    rcases hin ht with h | h
    · rw [hl] at h
      cases h
    · cases hth : w.threads l.thread with
      | installing pc => rw [hth] at hmine; exact hmine
      | _ => rw [hth] at h; cases h
  obtain ⟨hb, hs, ht⟩ := hmove.settled hw.binding hw.explicitlySet hmine hnot
  refine ⟨hb, hs, ?_⟩
  intro i
  rw [hthreads]
  by_cases hi : i = l.thread
  · subst hi
    rw [Function.update_self]
    exact ht
  · rw [Function.update_of_ne hi]
    exact hw.threads i

/-- Whatever happens after `w` without another install: every `ActiveBinding` that
starts after `w` returns `b`. -/
def World.Authoritative (env : Env B) (w : World B ι) (b : Option B) : Prop :=
  ∀ ls w', (∀ l ∈ ls, Label.installs env l = false) →
    Run.exec (World.step env) w ls = some w' →
    ∀ i s value, w'.threads i = .answered s value → w.installs ≤ s → value = b

/-- Whatever happens after `w` without another install: `b` stays the active binding. -/
def World.StaysActive (env : Env B) (w : World B ι) (b : Option B) : Prop :=
  ∀ ls w', (∀ l ∈ ls, Label.installs env l = false) →
    Run.exec (World.step env) w ls = some w' → w'.mem .binding = b

section

variable {env : Env B} {b : Option B} {w w' : World B ι}

theorem World.Settled.authoritative (hw : w.Settled b w.installs) : w.Authoritative env b := by
  intro ls w' hls h i s value hi hs
  have hw' : w'.Settled b w.installs :=
    Run.exec_invariant_of_steps (I := fun v : World B ι => v.Settled b w.installs)
      World.Settled.step (Run.steps_of_forall_mem hls w) hw h
  have hmine := hw'.threads i
  rw [hi] at hmine
  exact hmine hs

theorem World.Settled.staysActive {k : Nat} (hw : w.Settled b k) : w.StaysActive env b := by
  intro ls w' hls h
  have hw' : w'.Settled b k :=
    Run.exec_invariant_of_steps (I := fun v : World B ι => v.Settled b k)
      World.Settled.step (Run.steps_of_forall_mem hls w) hw h
  exact hw'.binding

theorem World.step_storeBinding {i : ι} (hi : w.threads i = .installing (.storeBinding b))
    (hstep : w.step env (.access i) = some w') :
    w' = ⟨Function.update w.mem .binding b, Function.update w.threads i (.installed true),
      w.installs + 1⟩ := by
  simp only [World.step, hi] at hstep
  exact (Option.some.inj hstep).symm

/-- The install's last access settles the world, if no adopter can undo it. -/
theorem World.settled_of_storeBinding {ls : List (Label B ι)} {i : ι}
    (hrun : World.run env ls = some w) (hi : w.threads i = .installing (.storeBinding b))
    (hothers : ∀ j, j ≠ i → (w.threads j).inInstall = false)
    (hstep : w.step env (.access i) = some w')
    (hadopt : b ≠ none ∨ ∀ j, (w.threads j).aboutToAdopt = false) : w'.Settled b w'.installs := by
  obtain rfl := World.step_storeBinding hi hstep
  refine ⟨Function.update_self Loc.binding b w.mem, ?_, ?_⟩
  · have hne : Loc.explicitlySet ≠ .binding := by decide
    exact (Function.update_of_ne hne b w.mem).trans (World.latched hrun hi)
  · intro j
    by_cases hj : j = i
    · subst hj
      simp [Thread.Settled]
    · have hold := World.started_le hrun j
      have hother := hothers j hj
      simp only [Function.update_of_ne hj]
      cases hth : w.threads j with
      | idle | installed ok => trivial
      | installing pc => rw [hth] at hother; cases hother
      | answered s value =>
          have hs := hold s (by rw [hth]; rfl)
          exact fun hk => absurd hk (by omega)
      | asking s pc =>
          have hs := hold s (by rw [hth]; rfl)
          cases pc with
          | loadBinding | reload => trivial
          | loadExplicitlySet => exact fun hk => absurd hk (by omega)
          | adopt d =>
              rcases hadopt with hb | hnone
              · exact hb
              · have := hnone j
                rw [hth] at this
                cases this

/-- An adopter that is ready when `nullptr` is active adopts, and its next call
returns what it adopted. -/
theorem World.adopts (env : Env B) {j : ι} {s : Nat} {d : B} (hnull : w.mem .binding = none)
    (hj : w.threads j = .asking s (.adopt d)) :
    ∃ w₁ w₂, Run.exec (World.step env) w [.access j] = some w₁ ∧ w₁.mem .binding = some d ∧
      Run.exec (World.step env) w [.access j, .access j, .callActive j, .access j] = some w₂ ∧
      w₂.threads j = .answered w.installs (some d) := by
  refine ⟨{ w with
      mem := Function.update w.mem .binding (some d)
      threads := Function.update w.threads j (.asking s .reload) },
    { w with
      mem := Function.update w.mem .binding (some d)
      threads := Function.update w.threads j (.answered w.installs (some d)) }, ?_, ?_, ?_, ?_⟩
  · simp [Run.exec, World.step, hj, activeBinding, hnull]
  · exact Function.update_self Loc.binding (some d) w.mem
  · simp [Run.exec, World.step, hj, activeBinding, hnull, Thread.inCall]
  · exact Function.update_self ..

/-- The adopter of `World.adopts` outlives an unbind. -/
theorem World.adopts_after_unbind {i j : ι} {s : Nat} {d : B}
    (hi : w.threads i = .installing (.storeBinding none))
    (hstep : w.step env (.access i) = some w') (hj : w.threads j = .asking s (.adopt d)) :
    ¬ w'.Authoritative env none ∧ ¬ w'.StaysActive env none := by
  obtain rfl := World.step_storeBinding hi hstep
  have hji : j ≠ i := by
    rintro rfl
    rw [hi] at hj
    cases hj
  obtain ⟨w₁, w₂, h1, hactive, h2, hanswer⟩ := World.adopts env
    (w := ⟨Function.update w.mem .binding none, Function.update w.threads i (.installed true),
      w.installs + 1⟩)
    (Function.update_self Loc.binding none w.mem) ((Function.update_of_ne hji _ _).trans hj)
  constructor
  · intro h
    have := h _ w₂ (by simp [Label.installs]) h2 j _ _ hanswer (Nat.le_refl _)
    cases this
  · intro h
    have := h _ w₁ (by simp [Label.installs]) h1
    rw [hactive] at this
    cases this

/-- **When an install is authoritative.** Let `InstallBinding(b)` make its last
access while no other install is in flight. Then every `ActiveBinding` that starts
afterwards returns `b`, and `b` stays active, exactly when `b` is not `nullptr` or
no thread is about to adopt the default. A rejected install changes nothing. -/
theorem installBinding_authoritative_iff (ls : List (Label B ι)) (i : ι)
    (hrun : World.run env ls = some w) (hi : w.threads i = .installing (.storeBinding b))
    (hothers : ∀ j, j ≠ i → (w.threads j).inInstall = false)
    (hstep : w.step env (.access i) = some w') :
    (w'.Authoritative env b ↔ b ≠ none ∨ ∀ j, (w.threads j).aboutToAdopt = false) ∧
      (w'.StaysActive env b ↔ b ≠ none ∨ ∀ j, (w.threads j).aboutToAdopt = false) ∧
      ∀ (u v : World B ι) j bad, env.accepts bad = false →
        u.step env (.callInstall j bad) = some v →
        v.mem = u.mem ∧ v.threads j = .installed false := by
  have hsettled := World.settled_of_storeBinding hrun hi hothers hstep
  have hundone : ¬ (b ≠ none ∨ ∀ j, (w.threads j).aboutToAdopt = false) →
      ¬ w'.Authoritative env b ∧ ¬ w'.StaysActive env b := by
    intro hcond
    rw [not_or, not_not, not_forall] at hcond
    obtain ⟨rfl, j, hj⟩ := hcond
    cases hth : w.threads j with
    | asking s pc =>
        cases pc with
        | adopt d => exact World.adopts_after_unbind hi hstep hth
        | _ => rw [hth] at hj; exact absurd rfl hj
    | _ => rw [hth] at hj; exact absurd rfl hj
  refine ⟨⟨?_, fun hcond => (hsettled hcond).authoritative⟩,
    ⟨?_, fun hcond => (hsettled hcond).staysActive⟩, ?_⟩
  · intro h
    by_contra hcond
    exact (hundone hcond).1 h
  · intro h
    by_contra hcond
    exact (hundone hcond).2 h
  · intro u v j bad hbad hcall
    simp only [World.step, enterInstall, hbad] at hcall
    split at hcall
    · cases hcall
    · cases hcall
      exact ⟨rfl, Function.update_self ..⟩

end

/-! ### An unbind that does not last -/

/-- Two tables: the console binding `false`, compiled in, and an SDK's `true`. -/
def consoleAndSdk : Env Bool := ⟨fun _ => kBindingAbiVersion, some false⟩

/-- Thread `false` asks for the active binding and gets as far as the adopting
exchange; thread `true` calls `InstallBinding(b)` and gets as far as its last store. -/
def racingInstall (b : Option Bool) : List (Label Bool Bool) :=
  [.callActive false, .access false, .access false, .callInstall true b, .access true]

/-- An SDK's binding wins the race. -/
theorem installBinding_authoritative_iff_sdk :
    ∃ w w', World.run consoleAndSdk (racingInstall (some true)) = some w ∧
      (w.threads false).aboutToAdopt = true ∧ w.step consoleAndSdk (.access true) = some w' ∧
      w'.Authoritative consoleAndSdk (some true) := by
  refine ⟨_, _, rfl, rfl, rfl, ?_⟩
  refine (installBinding_authoritative_iff (racingInstall (some true)) true rfl rfl ?_ rfl).1.mpr
    (Or.inl (by decide))
  decide

/-- The unbind returns, the adoption goes through, and the thread's next
`ActiveBinding` returns the console binding. -/
theorem racingInstall_null_not_authoritative :
    ∃ w w' w'', World.run consoleAndSdk (racingInstall none) = some w ∧
      (∀ j, j ≠ true → (w.threads j).inInstall = false) ∧
      w.threads true = .installing (.storeBinding none) ∧
      w.step consoleAndSdk (.access true) = some w' ∧
      w'.threads true = .installed true ∧ w'.mem .binding = none ∧
      Run.exec (World.step consoleAndSdk) w'
        [.access false, .access false, .callActive false, .access false] = some w'' ∧
      w''.threads false = .answered w'.installs (some false) ∧
      ¬ w'.Authoritative consoleAndSdk none := by
  refine ⟨_, _, _, rfl, by decide, rfl, rfl, rfl, rfl, rfl, rfl, ?_⟩
  intro h
  have hanswer := h [.access false, .access false, .callActive false, .access false] _
    (by decide) rfl false _ _ rfl (Nat.le_refl _)
  cases hanswer

end XmBase.Telemetry
