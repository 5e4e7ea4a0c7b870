import Mathlib.Logic.Basic
/-!
# XmBase.Lib.Run

**Labelled transition systems as partial functions.** A system is a function
`step : σ → ℓ → Option σ`: the label says who moves and how, `none` says that
the label is not enabled. A run is a list of labels, so concrete runs evaluate,
and everything that is nondeterministic about a concurrent program (the
schedule, the calls its threads make, the moment one of them dies) is the
universally quantified label list.

The rules here are the only inductions over runs in the development:

* `exec_invariant` — what every enabled step preserves, every run preserves;
* `exec_invariant_of_steps` — the same where only the steps that meet a
  side condition are known to preserve it;
* `exec_inherit` — what a step hands back from its end to its start, a run does;
* `exec_rel` — two systems that are related and stay related under every label run alike;
* `along_iff_steps` — a state property holds all along a run exactly when no
  step of it violates the matching step condition;
* `exec_recorded`, `along_iff_recorded` — the same for what a record of the labels
  says of the state: the condition is then on the list of labels alone.
-/

namespace XmBase.Run

variable {σ ℓ : Type*} {step : σ → ℓ → Option σ}

/-- Execute the labels in order; `none` as soon as one is not enabled. -/
def exec (step : σ → ℓ → Option σ) : σ → List ℓ → Option σ
  | s, [] => some s
  | s, l :: ls => (step s l).bind fun s' => exec step s' ls

@[simp] theorem exec_nil (s : σ) : exec step s [] = some s := rfl

/-- Invert the first step of a run. -/
theorem exec_cons_eq_some {s t : σ} {l : ℓ} {ls : List ℓ} :
    exec step s (l :: ls) = some t ↔
      ∃ s', step s l = some s' ∧ exec step s' ls = some t := by
  simp only [exec, Option.bind_eq_some_iff]

/-- Runs compose. A schedule can be given in parts. -/
theorem exec_append {s t u : σ} {ls ls' : List ℓ} (h : exec step s ls = some t)
    (h' : exec step t ls' = some u) : exec step s (ls ++ ls') = some u := by
  induction ls generalizing s with
  | nil =>
      obtain rfl : s = t := by simpa using h
      exact h'
  | cons l ls ih =>
      obtain ⟨s', h1, h2⟩ := exec_cons_eq_some.mp h
      exact exec_cons_eq_some.mpr ⟨s', h1, ih h2⟩

/-- A schedule that evaluates to a state with a decidable property is a run to
such a state. -/
theorem exists_exec {P : σ → Prop} [DecidablePred P] {s : σ} {ls : List ℓ}
    (h : (exec step s ls).any (fun t => P t) = true) : ∃ t, exec step s ls = some t ∧ P t := by
  obtain ⟨t, ht, hP⟩ := (Option.any_eq_true _ _).mp h
  exact ⟨t, ht, of_decide_eq_true hP⟩

/-- Every step taken along the run from `s` meets `C`, a condition on the state
before the step and its label. -/
def Steps (step : σ → ℓ → Option σ) (C : σ → ℓ → Prop) : σ → List ℓ → Prop
  | _, [] => True
  | s, l :: ls => C s l ∧ ∀ s', step s l = some s' → Steps step C s' ls

instance decidableSteps {C : σ → ℓ → Prop} [∀ s l, Decidable (C s l)] :
    (s : σ) → (ls : List ℓ) → Decidable (Steps step C s ls)
  | _, [] => .isTrue trivial
  | s, l :: ls =>
      match h : step s l with
      | none => decidable_of_iff (C s l) (by simp [Steps, h])
      | some s' =>
          have := decidableSteps (C := C) s' ls
          decidable_of_iff (C s l ∧ Steps step C s' ls) (by simp [Steps, h])

/-- Every state along the run from `s`, both ends included, satisfies `P`. -/
def Along (step : σ → ℓ → Option σ) (P : σ → Prop) : σ → List ℓ → Prop
  | s, [] => P s
  | s, l :: ls => P s ∧ ∀ s', step s l = some s' → Along step P s' ls

/-- **Guarded invariant rule.** The condition may look at the state before the step, so it
can be one on the run and not on the system. -/
theorem exec_invariant_of_steps {I : σ → Prop} {C : σ → ℓ → Prop}
    (hstep : ∀ {s l s'}, C s l → I s → step s l = some s' → I s') :
    ∀ {ls : List ℓ} {s t : σ}, Steps step C s ls → I s → exec step s ls = some t → I t := by
  intro ls
  induction ls with
  | nil =>
      intro s t _ hs h
      obtain rfl : s = t := by simpa using h
      exact hs
  | cons l ls ih =>
      intro s t hC hs h
      obtain ⟨s', h1, h2⟩ := exec_cons_eq_some.mp h
      exact ih (hC.2 s' h1) (hstep hC.1 hs h1) h2

theorem steps_true (s : σ) (ls : List ℓ) : Steps step (fun _ _ => True) s ls := by
  induction ls generalizing s with
  | nil => trivial
  | cons l ls ih => exact ⟨trivial, fun s' _ => ih s'⟩

/-- **Invariant rule.** -/
theorem exec_invariant {I : σ → Prop}
    (hstep : ∀ {s l s'}, I s → step s l = some s' → I s')
    {ls : List ℓ} {s t : σ} (hs : I s) (h : exec step s ls = some t) : I t :=
  exec_invariant_of_steps (fun _ => hstep) (steps_true s ls) hs h

/-- A condition that every label of the list meets, whatever the state, is met
along the run. -/
theorem steps_of_forall_mem {C : ℓ → Prop} {ls : List ℓ} (h : ∀ l ∈ ls, C l) (s : σ) :
    Steps step (fun _ l => C l) s ls := by
  induction ls generalizing s with
  | nil => trivial
  | cons l ls ih =>
      exact ⟨h l List.mem_cons_self, fun s' _ => ih (fun k hk => h k (List.mem_cons_of_mem l hk)) s'⟩

/-- What holds at the end of a run and is inherited backwards holds at its start. -/
theorem exec_inherit {B : σ → Prop} (hB : ∀ {s l s'}, step s l = some s' → B s' → B s) :
    ∀ {ls : List ℓ} {s t : σ}, exec step s ls = some t → B t → B s := by
  intro ls
  induction ls with
  | nil =>
      intro s t h ht
      obtain rfl : s = t := by simpa using h
      exact ht
  | cons l ls ih =>
      intro s t h ht
      obtain ⟨s', h1, h2⟩ := exec_cons_eq_some.mp h
      exact hB h1 (ih h2 ht)

/-- **Bisimulation rule.** Neither system may be able to move where the other is not. -/
theorem exec_rel {τ : Type*} {step' : τ → ℓ → Option τ} {R : σ → τ → Prop}
    (hstep : ∀ {s t}, R s t → ∀ l, Option.Rel R (step s l) (step' t l)) :
    ∀ (ls : List ℓ) {s : σ} {t : τ}, R s t → Option.Rel R (exec step s ls) (exec step' t ls) := by
  intro ls
  induction ls with
  | nil => exact fun h => .some h
  | cons l ls ih =>
      intro s t h
      have hl := hstep h l
      simp only [exec]
      generalize step s l = s' at hl ⊢
      generalize step' t l = t' at hl ⊢
      cases hl with
      | some h' => exact ih h'
      | none => exact .none

theorem Along.head {P : σ → Prop} {s : σ} {ls : List ℓ} (h : Along step P s ls) : P s := by
  cases ls with
  | nil => exact h
  | cons l ls => exact h.1

theorem along_cons_iff {P : σ → Prop} {s s' : σ} {l : ℓ} {ls : List ℓ}
    (h1 : step s l = some s') : Along step P s (l :: ls) ↔ P s ∧ Along step P s' ls := by
  refine ⟨fun h => ⟨h.1, h.2 s' h1⟩, ?_⟩
  rintro ⟨hPs, hrest⟩
  refine ⟨hPs, ?_⟩
  intro s'' h''
  obtain rfl : s' = s'' := Option.some.inj (h1.symm.trans h'')
  exact hrest

/-- Relative to an invariant `I` and a bound `B` on the last state, a state
property that can only be lost at a step violating `C`, and is lost at each such
step, holds all along a run exactly when every step of the run meets `C`. -/
theorem along_iff_steps {B I P : σ → Prop} {C : σ → ℓ → Prop}
    (hB : ∀ {s l s'}, step s l = some s' → B s' → B s)
    (hI : ∀ {s l s'}, B s' → I s → step s l = some s' → I s')
    (hP : ∀ {s l s'}, B s' → I s → P s → step s l = some s' → (P s' ↔ C s l)) :
    ∀ {ls : List ℓ} {s t : σ}, I s → P s → exec step s ls = some t → B t →
      (Along step P s ls ↔ Steps step C s ls) := by
  intro ls
  induction ls with
  | nil =>
      intro s t _ hPs _ _
      exact ⟨fun _ => trivial, fun _ => hPs⟩
  | cons l ls ih =>
      intro s t hIs hPs h ht
      obtain ⟨s', h1, h2⟩ := exec_cons_eq_some.mp h
      have hBs' : B s' := exec_inherit hB h2 ht
      have hiff : P s' ↔ C s l := hP hBs' hIs hPs h1
      have hrec : P s' → (Along step P s' ls ↔ Steps step C s' ls) :=
        fun hPs' => ih (hI hBs' hIs h1) hPs' h2 ht
      rw [along_cons_iff h1]
      constructor
      · rintro ⟨-, hs'⟩
        refine ⟨hiff.mp hs'.head, ?_⟩
        intro s'' h''
        obtain rfl : s' = s'' := Option.some.inj (h1.symm.trans h'')
        exact (hrec hs'.head).mp hs'
      · rintro ⟨hC, hrest⟩
        exact ⟨hPs, (hrec (hiff.mpr hC)).mpr (hrest s' h1)⟩

/-! ### Records of the labels

A record is what an observer who sees the labels and not the states can keep: it is
folded over the list of labels. Where a state and a record stay related, a property of
the state can be told from the labels, and its condition stated without the system. -/

section

variable {τ : Type*} {f : τ → ℓ → τ} {R : σ → τ → Prop}

/-- **Record rule.** -/
theorem exec_recorded (hR : ∀ {s t l s'}, R s t → step s l = some s' → R s' (f t l)) :
    ∀ {ls : List ℓ} {s s' : σ} {t : τ}, R s t → exec step s ls = some s' →
      R s' (ls.foldl f t) := by
  intro ls
  induction ls with
  | nil =>
      intro s s' t hs h
      obtain rfl : s = s' := by simpa using h
      exact hs
  | cons l ls ih =>
      intro s s' t hs h
      obtain ⟨s₁, h1, h2⟩ := exec_cons_eq_some.mp h
      exact ih (hR hs h1) h2

/-- What holds of a record and is inherited backwards held of the record it grew from. -/
theorem foldl_inherit {B : τ → Prop} (hB : ∀ {t l}, B (f t l) → B t) {ls : List ℓ} {t : τ}
    (h : B (ls.foldl f t)) : B t := by
  induction ls generalizing t with
  | nil => exact h
  | cons l ls ih => exact hB (ih h)

/-- Relative to a bound `B` on the last record, a state property that can only be lost at
a label violating `C`, and is lost at each such label, holds all along a run exactly when
every label of the run meets `C` after the labels before it. -/
theorem along_iff_recorded {B : τ → Prop} {P : σ → Prop} {C : τ → ℓ → Prop}
    (hB : ∀ {t l}, B (f t l) → B t)
    (hR : ∀ {s t l s'}, R s t → step s l = some s' → R s' (f t l))
    (hP : ∀ {s t l s'}, B (f t l) → R s t → P s → step s l = some s' → (P s' ↔ C t l)) :
    ∀ {ls : List ℓ} {s u : σ} {t : τ}, R s t → P s → exec step s ls = some u →
      B (ls.foldl f t) →
      (Along step P s ls ↔ ∀ past l rest, ls = past ++ l :: rest → C (past.foldl f t) l) := by
  intro ls
  induction ls with
  | nil =>
      intro s u t _ hPs _ _
      exact ⟨fun _ past l rest hls => absurd hls (by simp), fun _ => hPs⟩
  | cons l ls ih =>
      intro s u t hRs hPs h hu
      obtain ⟨s', h1, h2⟩ := exec_cons_eq_some.mp h
      have hiff : P s' ↔ C t l := hP (foldl_inherit hB hu) hRs hPs h1
      have hrec := fun hPs' => ih (hR hRs h1) hPs' h2 hu
      rw [along_cons_iff h1]
      constructor
      · rintro ⟨-, hs'⟩ past k rest hls
        cases past with
        | nil =>
            obtain ⟨rfl, rfl⟩ := List.cons.inj hls
            exact hiff.mp hs'.head
        | cons m past =>
            obtain ⟨rfl, htail⟩ := List.cons.inj hls
            exact (hrec hs'.head).mp hs' past k rest htail
      · intro hC
        have hPs' : P s' := hiff.mpr (hC [] l ls rfl)
        refine ⟨hPs, (hrec hPs').mpr ?_⟩
        intro past k rest hls
        exact hC (l :: past) k rest (congrArg (l :: ·) hls)

end

end XmBase.Run
