import XmBase.Lib.Run
import Mathlib.Logic.Function.Basic
import Mathlib.Data.Fintype.Basic
/-!
# XmBase.Concurrency.MutexSlot

The slot for values that are not trivially copyable, `MutexMessageSlot` of
`include/xmbase/concurrency/message_slot.hpp`, shared by any number of threads. Copying such
a value takes many steps, and it can throw in the middle of them (a `std::vector` allocates),
so a value here has `k` parts that are copied one at a time, and every copy may end early;
the `lock_guard` then lets go of the mutex and the parts copied so far stay.

* `slot_linearizable`: in every interleaving the calls take effect one at a time, in the
  order in which they let go of the mutex, on a register that a failed `Store` spoils until
  the next one completes;
* `calls_in_program_order`: in that order each thread's calls stand as it made them, once.
-/

namespace XmBase.Concurrency.MutexMessageSlot

variable {α ι : Type} {k : Nat}

/-- A value: its parts. -/
abbrev Parts (α : Type) (k : Nat) : Type := Fin k → α

/-- A call with its argument. -/
inductive Call (α : Type) (k : Nat)
  | store (v : Parts α k)
  /-- `out` is the caller's object. -/
  | load (out : Parts α k)

/-- A call that has ended. A `Store` that threw may have copied some parts, and a `Load`
that threw has written some of `out`; neither returns anything. -/
inductive Event (α : Type) (k : Nat)
  | store (v : Parts α k)
  /-- What `Load` returns, and what `out` is then. -/
  | load (out : Parts α k) (answer : Bool × Parts α k)
  | storeThrows (v : Parts α k)
  | loadThrows (out : Parts α k)

def Event.call : Event α k → Call α k
  | .store v | .storeThrows v => .store v
  | .load out _ | .loadThrows out => .load out

/-- Where a thread is. The copies of `Store` and `Load` are one part a step, so another thread
can move, or the copy can throw, between any two parts. -/
inductive Thread (α : Type) (k : Nat)
  | idle
  /-- At the `lock_guard`. -/
  | waiting (c : Call α k)
  /-- In `value_ = value`, with `j` parts copied. -/
  | storing (v : Parts α k) (j : Nat)
  /-- At the test of `written_`. -/
  | testing (out : Parts α k)
  /-- In `out = value_`, with `j` parts copied to what is now `cur`. -/
  | loading (out cur : Parts α k) (j : Nat)
  /-- At the end of the scope of the `lock_guard`. -/
  | leaving (e : Event α k)

/-- The slot and its threads. `made` has the calls of each thread and `log` those that have
ended, in the order of the mutex. -/
structure World (α ι : Type) (k : Nat) where
  holder : Option ι
  value : Parts α k
  written : Bool
  threads : ι → Thread α k
  made : ι → List (Call α k)
  log : List (ι × Event α k)

inductive Label (α ι : Type) (k : Nat)
  | call (i : ι) (c : Call α k)
  | advance (i : ι)
  /-- The copy that the thread is in throws. -/
  | throw (i : ι)

variable [DecidableEq ι]

def World.set (w : World α ι k) (i : ι) (t : Thread α k) : World α ι k :=
  { w with threads := Function.update w.threads i t }

/-- The destructor of the `lock_guard`, and the return. -/
def World.unlock (w : World α ι k) (i : ι) (e : Event α k) : World α ι k :=
  { w.set i .idle with holder := none, log := w.log ++ [(i, e)] }

def World.advance (w : World α ι k) (i : ι) : Option (World α ι k) :=
  match w.threads i with
  | .idle => none
  | .waiting c =>
      if w.holder.isNone then
        some { w.set i (match c with
          | .store v => .storing v 0
          | .load out => .testing out) with holder := some i }
      else none
  | .storing v j =>
      if h : j < k then
        some { w.set i (.storing v (j + 1)) with value := Function.update w.value ⟨j, h⟩ (v ⟨j, h⟩) }
      else some { w.set i (.leaving (.store v)) with written := true }
  | .testing out =>
      if w.written then some (w.set i (.loading out out 0))
      else some (w.set i (.leaving (.load out (false, out))))
  | .loading out cur j =>
      if h : j < k then
        some (w.set i (.loading out (Function.update cur ⟨j, h⟩ (w.value ⟨j, h⟩)) (j + 1)))
      else some (w.set i (.leaving (.load out (true, cur))))
  | .leaving e => some (w.unlock i e)

def World.step (w : World α ι k) : Label α ι k → Option (World α ι k)
  | .call i c =>
      match w.threads i with
      | .idle => some { w.set i (.waiting c) with made := Function.update w.made i (w.made i ++ [c]) }
      | _ => none
  | .advance i => w.advance i
  | .throw i =>
      match w.threads i with
      | .storing v _ => some (w.unlock i (.storeThrows v))
      | .loading out _ _ => some (w.unlock i (.loadThrows out))
      | _ => none

/-- The slot as it is constructed, with the value `T{}`. -/
def World.init (initial : Parts α k) : World α ι k where
  holder := none
  value := initial
  written := false
  threads := fun _ => .idle
  made := fun _ => []
  log := []

def World.run (initial : Parts α k) (ls : List (Label α ι k)) : Option (World α ι k) :=
  Run.exec World.step (World.init initial) ls

/-! ### The register

What the calls must look like from outside: a register with a third state, in which a `Load`
still returns `true` but with parts of two values. `Legal` is the specification; it knows
nothing of threads, the mutex or single parts. -/

/-- What a slot is for: nothing, or a value, or what a `Store` that threw has left of two
values. -/
inductive Content (α : Type) (k : Nat)
  | empty
  | holds (v : Parts α k)
  /-- A `Store` has thrown since. -/
  | spoiled

/-- What a call that has ended leaves. A `Store` that throws before the first one completes
leaves a slot that still answers `false`. -/
def Content.after : Content α k → Event α k → Content α k
  | _, .store v => .holds v
  | .empty, .storeThrows _ => .empty
  | _, .storeThrows _ => .spoiled
  | c, _ => c

/-- What a `Load` may answer. A spoiled register only promises to answer. -/
def Content.Allows : Content α k → Event α k → Prop
  | .empty, .load out answer => answer = (false, out)
  | .holds v, .load _ answer => answer = (true, v)
  | .spoiled, .load _ answer => answer.1 = true
  | _, _ => True

/-- The calls, one after the other, do what they do on a register. -/
def Legal : Content α k → List (Event α k) → Prop
  | _, [] => True
  | c, e :: es => c.Allows e ∧ Legal (c.after e) es

def contentOf (es : List (Event α k)) : Content α k := es.foldl Content.after .empty

theorem legal_append {c : Content α k} {es : List (Event α k)} {e : Event α k} :
    Legal c (es ++ [e]) ↔ Legal c es ∧ (es.foldl Content.after c).Allows e := by
  induction es generalizing c with
  | nil => simp [Legal]
  | cons e' es ih => simp only [List.cons_append, Legal, List.foldl_cons, ih, and_assoc]

theorem contentOf_append (es : List (Event α k)) (e : Event α k) :
    contentOf (es ++ [e]) = (contentOf es).after e := by
  rw [contentOf, List.foldl_append]
  rfl

/-- The members say what the register says. A spoiled register says nothing about the value. -/
def Content.Agrees (value : Parts α k) (written : Bool) : Content α k → Prop
  | .empty => written = false
  | .holds v => written = true ∧ value = v
  | .spoiled => written = true

/-- The call a thread is in. -/
def Thread.pending : Thread α k → List (Call α k)
  | .idle => []
  | .waiting c => [c]
  | .storing v _ => [.store v]
  | .testing out | .loading out _ _ => [.load out]
  | .leaving e => [e.call]

/-! ### The invariant

The register is read off the log, and the invariant ties the members to it in two ways:
while nobody has the mutex they agree with the register, and while somebody has it `Holding`
says how far that thread is from agreeing again. The others are outside, so a step inside
touches one thread only. -/

/-- Between the construction of the `lock_guard` and its destruction. -/
def Thread.inside : Thread α k → Bool
  | .idle | .waiting _ => false
  | _ => true

/-- How far the thread that has the mutex is, with the register at `c`. While it stores, the
members agree with no register. -/
def Holding (c : Content α k) (value : Parts α k) (written : Bool) : Thread α k → Prop
  | .storing v j => (∀ m : Fin k, m.val < j → value m = v m) ∧ (written = false ↔ c = .empty)
  | .testing _ => c.Agrees value written
  | .loading _ cur j =>
      c.Agrees value written ∧ written = true ∧ ∀ m : Fin k, m.val < j → cur m = value m
  | .leaving e => (c.after e).Agrees value written ∧ c.Allows e
  | _ => False

def World.events (w : World α ι k) : List (Event α k) := w.log.map Prod.snd

/-- The mutex excludes, the members say what the register says, up to what the thread that
has the mutex is doing to them, and the log so far is that of a register. -/
structure Inv (w : World α ι k) : Prop where
  lock : ∀ i, (w.threads i).inside = true → w.holder = some i
  free : w.holder = none → (contentOf w.events).Agrees w.value w.written
  held : ∀ i, w.holder = some i → Holding (contentOf w.events) w.value w.written (w.threads i)
  legal : Legal .empty w.events

variable {w w' : World α ι k} {i : ι}

theorem Content.Agrees.written_iff {c : Content α k} {value : Parts α k} {written : Bool}
    (h : c.Agrees value written) : written = false ↔ c = .empty := by
  cases c with
  | empty => simpa [Content.Agrees] using h
  | holds v => simp [h.1]
  | spoiled => simpa [Content.Agrees] using h

/-- A `Store` that throws. -/
theorem Content.agrees_after_storeThrows {c : Content α k} (value v : Parts α k) {written : Bool}
    (h : written = false ↔ c = .empty) : (c.after (.storeThrows v)).Agrees value written := by
  cases c with
  | empty => exact h.mpr rfl
  | holds v => simpa [Content.after, Content.Agrees] using h
  | spoiled => simpa [Content.after, Content.Agrees] using h

/-- What `Load` answers with the whole value copied. -/
theorem Content.Agrees.allows_load {c : Content α k} {value : Parts α k} (out : Parts α k)
    (h : c.Agrees value true) : c.Allows (.load out (true, value)) := by
  cases c with
  | empty => cases h
  | holds v => exact Prod.ext rfl h.2
  | spoiled => rfl

omit [DecidableEq ι] in
theorem Inv.init (initial : Parts α k) : Inv (World.init initial : World α ι k) where
  lock := by
    intro i h
    cases h
  free := fun _ => rfl
  held := by
    intro i h
    cases h
  legal := trivial

omit [DecidableEq ι] in
/-- While nobody or `i` has the mutex, the others are outside. -/
theorem Inv.others (hI : Inv w) (h : w.holder = none ∨ w.holder = some i) {j : ι} (hj : j ≠ i) :
    (w.threads j).inside = false := by
  by_contra hin
  have hholder := hI.lock j (by simpa using hin)
  rcases h with h | h
  · rw [h] at hholder
    cases hholder
  · rw [h] at hholder
    exact hj (Option.some.inj hholder).symm

/-- A thread makes a step inside, or the one that takes it there. -/
theorem Inv.inside (hI : Inv w) (h : w.holder = none ∨ w.holder = some i) {t : Thread α k}
    (hthreads : w'.threads = Function.update w.threads i t) (hholder : w'.holder = some i)
    (hlog : w'.log = w.log) (ht : Holding (contentOf w.events) w'.value w'.written t) : Inv w' := by
  have hevents : w'.events = w.events := congrArg (List.map Prod.snd) hlog
  refine ⟨?_, ?_, ?_, ?_⟩
  · intro j hj
    by_cases hji : j = i
    · rw [hji, hholder]
    · rw [hthreads, Function.update_of_ne hji, hI.others h hji] at hj
      cases hj
  · intro hfree
    rw [hholder] at hfree
    cases hfree
  · intro j hj
    obtain rfl : i = j := by rw [hholder] at hj; exact Option.some.inj hj
    rwa [hthreads, Function.update_self, hevents]
  · rw [hevents]
    exact hI.legal

/-- A thread lets go of the mutex. The register and the members must agree again by then. -/
theorem Inv.unlock (hI : Inv w) (h : w.holder = some i) {e : Event α k}
    (he : ((contentOf w.events).after e).Agrees w.value w.written)
    (ha : (contentOf w.events).Allows e) : Inv (w.unlock i e) := by
  have hevents : (w.unlock i e).events = w.events ++ [e] := List.map_append
  have hthreads : (w.unlock i e).threads = Function.update w.threads i .idle := rfl
  refine ⟨?_, ?_, ?_, ?_⟩
  · intro j hj
    by_cases hji : j = i
    · subst hji
      rw [hthreads, Function.update_self] at hj
      cases hj
    · rw [hthreads, Function.update_of_ne hji, hI.others (.inr h) hji] at hj
      cases hj
  · intro _
    rw [hevents, contentOf_append]
    exact he
  · intro j hj
    cases hj
  · rw [hevents]
    exact legal_append.mpr ⟨hI.legal, ha⟩

theorem Holding.inside {c : Content α k} {value : Parts α k} {written : Bool} {t : Thread α k}
    (h : Holding c value written t) : t.inside = true := by
  cases t with
  | idle | waiting => exact h.elim
  | storing | testing | loading | leaving => rfl

/-- A thread comes to the mutex. It does not touch the members, and is not inside yet. -/
theorem Inv.call (hI : Inv w) (hi : (w.threads i).inside = false) (c : Call α k)
    (made : ι → List (Call α k)) : Inv { w.set i (.waiting c) with made := made } := by
  have hholder : w.holder ≠ some i := by
    intro h
    have := (hI.held i h).inside
    rw [hi] at this
    cases this
  refine ⟨?_, hI.free, ?_, hI.legal⟩
  · intro j hj
    by_cases hji : j = i
    · subst hji
      simp [World.set, Thread.inside] at hj
    · simp only [World.set, Function.update_of_ne hji] at hj
      exact hI.lock j hj
  · intro j hj
    have hji : j ≠ i := by
      rintro rfl
      exact hholder hj
    simp only [World.set, Function.update_of_ne hji]
    exact hI.held j hj

/-- One more part is copied. -/
theorem update_eq_of_lt {a b : Parts α k} {j : Nat} (hj : j < k)
    (h : ∀ m : Fin k, m.val < j → a m = b m) :
    ∀ m : Fin k, m.val < j + 1 → Function.update a ⟨j, hj⟩ (b ⟨j, hj⟩) m = b m := by
  intro m hm
  by_cases hmj : m = ⟨j, hj⟩
  · rw [hmj, Function.update_self]
  · have hne : m.val ≠ j := fun heq => hmj (Fin.ext heq)
    rw [Function.update_of_ne hmj, h m (by omega)]

theorem eq_of_copied {a b : Parts α k} {j : Nat} (hj : ¬ j < k)
    (h : ∀ m : Fin k, m.val < j → a m = b m) : a = b :=
  funext fun m => h m (by omega)

omit [DecidableEq ι] in
theorem Inv.of_inside (hI : Inv w) {t : Thread α k} (hi : w.threads i = t) (ht : t.inside = true) :
    w.holder = some i ∧ Holding (contentOf w.events) w.value w.written t := by
  subst hi
  have hholder := hI.lock i ht
  exact ⟨hholder, hI.held i hholder⟩

theorem Inv.advance (hI : Inv w) (h : w.advance i = some w') : Inv w' := by
  cases hi : w.threads i with
  | idle => simp [World.advance, hi] at h
  | waiting c =>
      simp only [World.advance, hi] at h
      split_ifs at h with hfree
      obtain rfl := Option.some.inj h
      have hnone : w.holder = none := Option.isNone_iff_eq_none.mp hfree
      have hagrees := hI.free hnone
      cases c with
      | store v =>
          refine hI.inside (.inl hnone) rfl rfl rfl ?_
          exact ⟨fun m hm => absurd hm (by omega), hagrees.written_iff⟩
      | load out => exact hI.inside (.inl hnone) rfl rfl rfl hagrees
  | storing v j =>
      obtain ⟨hholder, hcopied, hwritten⟩ := hI.of_inside hi rfl
      simp only [World.advance, hi] at h
      split_ifs at h with hj
      · obtain rfl := Option.some.inj h
        exact hI.inside (.inr hholder) rfl hholder rfl ⟨update_eq_of_lt hj hcopied, hwritten⟩
      · obtain rfl := Option.some.inj h
        exact hI.inside (.inr hholder) rfl hholder rfl
          ⟨⟨rfl, eq_of_copied hj hcopied⟩, by cases contentOf w.events <;> trivial⟩
  | testing out =>
      obtain ⟨hholder, hagrees⟩ := hI.of_inside hi rfl
      simp only [World.advance, hi] at h
      split_ifs at h with hwritten
      · obtain rfl := Option.some.inj h
        exact hI.inside (.inr hholder) rfl hholder rfl
          ⟨hagrees, hwritten, fun m hm => absurd hm (by omega)⟩
      · obtain rfl := Option.some.inj h
        refine hI.inside (.inr hholder) rfl hholder rfl ⟨hagrees, ?_⟩
        have hempty := (Content.Agrees.written_iff hagrees).mp (by simpa using hwritten)
        rw [hempty]
        rfl
  | loading out cur j =>
      obtain ⟨hholder, hagrees, hwritten, hcur⟩ := hI.of_inside hi rfl
      simp only [World.advance, hi] at h
      split_ifs at h with hj
      · obtain rfl := Option.some.inj h
        exact hI.inside (.inr hholder) rfl hholder rfl
          ⟨hagrees, hwritten, update_eq_of_lt hj hcur⟩
      · obtain rfl := Option.some.inj h
        refine hI.inside (.inr hholder) rfl hholder rfl ⟨hagrees, ?_⟩
        rw [hwritten] at hagrees
        rw [eq_of_copied hj hcur]
        exact hagrees.allows_load out
  | leaving e =>
      obtain ⟨hholder, hagrees, hallows⟩ := hI.of_inside hi rfl
      simp only [World.advance, hi] at h
      obtain rfl := Option.some.inj h
      exact hI.unlock hholder hagrees hallows

theorem Inv.step {l : Label α ι k} (hI : Inv w) (h : w.step l = some w') : Inv w' := by
  cases l with
  | call i c =>
      cases hi : w.threads i with
      | idle =>
          simp only [World.step, hi] at h
          obtain rfl := Option.some.inj h
          exact hI.call (by rw [hi]; rfl) c _
      | _ => simp [World.step, hi] at h
  | advance i => exact hI.advance h
  | throw i =>
      cases hi : w.threads i with
      | storing v j =>
          -- the parts copied so far stay: only an empty register is as it was
          obtain ⟨hholder, -, hwritten⟩ := hI.of_inside hi rfl
          simp only [World.step, hi] at h
          obtain rfl := Option.some.inj h
          exact hI.unlock hholder (Content.agrees_after_storeThrows _ _ hwritten)
            (by cases contentOf w.events <;> trivial)
      | loading out cur j =>
          obtain ⟨hholder, hagrees, -⟩ := hI.of_inside hi rfl
          simp only [World.step, hi] at h
          obtain rfl := Option.some.inj h
          refine hI.unlock hholder ?_ (by cases contentOf w.events <;> trivial)
          cases hc : contentOf w.events <;> rwa [hc] at hagrees
      | _ => simp [World.step, hi] at h

theorem World.run_inv {initial : Parts α k} {ls : List (Label α ι k)}
    (h : World.run initial ls = some w) : Inv w :=
  Run.exec_invariant (fun hI hstep => hI.step hstep) (Inv.init initial) h

/-! ### Whole runs

The invariant's last field is linearizability. Progress is read off the first: the one
thread inside can always make its next step, and with nobody inside every waiting thread can
take the mutex. -/

/-- **Linearizability.** In every interleaving of any number of threads the calls, taken in
the order in which they let go of the mutex, do what they do on a register: a `Load` returns
`false` and leaves `out` alone before the first `Store`, and the whole of the last value
stored after it. A `Store` that throws spoils the register, if it holds anything, until the
next one. -/
theorem slot_linearizable {initial : Parts α k} {ls : List (Label α ι k)}
    (h : World.run initial ls = some w) : Legal .empty w.events :=
  (World.run_inv h).legal

/-- What a `Load` of a value of two parts answered. -/
def Event.answer? : Event Nat 2 → Option (Bool × Nat × Nat)
  | .load _ (found, out) => some (found, out 0, out 1)
  | _ => none

/-- The second `Store` of thread `0` throws with one of two parts copied, after thread `1`
has asked for the mutex; the `Load` of thread `1` then gets one part of each value. -/
def spoilingRun : List (Label Nat (Fin 2) 2) :=
  [.call 0 (.store fun _ => 1), .advance 0, .advance 0, .advance 0, .advance 0, .advance 0,
    .call 0 (.store fun _ => 2), .call 1 (.load fun _ => 9), .advance 0, .advance 0, .throw 0,
    .advance 1, .advance 1, .advance 1, .advance 1, .advance 1, .advance 1]

theorem slot_linearizable_spoiled :
    ∃ w : World Nat (Fin 2) 2, World.run (fun _ => 0) spoilingRun = some w ∧
      w.events.filterMap Event.answer? = [(true, 2, 1)] ∧ Legal .empty w.events := by
  have hex : ∃ w : World Nat (Fin 2) 2, World.run (fun _ => 0) spoilingRun = some w ∧
      w.events.filterMap Event.answer? = [(true, 2, 1)] := Run.exists_exec (by decide)
  obtain ⟨w, hrun, hanswers⟩ := hex
  exact ⟨w, hrun, hanswers, slot_linearizable hrun⟩

/-- A thread that has the mutex never waits. It is inside, and every step inside is
possible. -/
theorem World.isSome_advance (h : (w.threads i).inside = true) : (w.advance i).isSome = true := by
  unfold World.advance
  cases ht : w.threads i with
  | idle | waiting =>
      rw [ht] at h
      cases h
  | storing | testing | loading =>
      dsimp only
      split_ifs <;> rfl
  | leaving e => rfl

/-- **No deadlock.** As long as a call has not returned, some thread can go on. It may be
another thread than the one that waits; a copy that throws lets go of the mutex like one
that ends. -/
theorem slot_never_stuck {initial : Parts α k} {ls : List (Label α ι k)}
    (h : World.run initial ls = some w) (hi : w.threads i ≠ .idle) :
    ∃ j, (w.step (.advance j)).isSome = true := by
  have hI := World.run_inv h
  cases hholder : w.holder with
  | none =>
      refine ⟨i, ?_⟩
      cases ht : w.threads i with
      | idle => exact absurd ht hi
      | waiting c => simp [World.step, World.advance, ht, hholder]
      | storing | testing | loading | leaving =>
          have := hI.lock i (by rw [ht]; rfl)
          rw [hholder] at this
          cases this
  | some j =>
      exact ⟨j, World.isSome_advance (hI.held j hholder).inside⟩

theorem slot_never_stuck_waiting :
    ∃ w : World Nat (Fin 2) 2, World.run (fun _ => 0) (spoilingRun.take 10) = some w ∧
      ∃ j, (w.step (.advance j)).isSome = true := by
  have hex : ∃ w : World Nat (Fin 2) 2, World.run (fun _ => 0) (spoilingRun.take 10) = some w ∧
      (w.threads 1).pending.length = 1 := Run.exists_exec (by decide)
  obtain ⟨w, hrun, hmade⟩ := hex
  refine ⟨w, hrun, slot_never_stuck (i := 1) hrun ?_⟩
  intro hidle
  rw [hidle] at hmade
  cases hmade

/-! ### Program order

That the log is a register's says nothing about who called what. This invariant does: thread
by thread, the log has the calls in the order they were made, all but the one in progress. -/

/-- The calls of a thread that have ended. -/
def ended (i : ι) (log : List (ι × Event α k)) : List (Call α k) :=
  (log.filter fun entry => entry.1 = i).map fun entry => entry.2.call

/-- The calls of each thread are those that have ended and the one it is in. -/
def Accounted (w : World α ι k) : Prop :=
  ∀ i, w.made i = ended i w.log ++ (w.threads i).pending

theorem ended_append (i j : ι) (log : List (ι × Event α k)) (e : Event α k) :
    ended i (log ++ [(j, e)]) = ended i log ++ if j = i then [e.call] else [] := by
  unfold ended
  rw [List.filter_append, List.map_append]
  by_cases hj : j = i
  · simp [hj]
  · simp [hj]

/-- A step inside a call. What the thread is in stays the same call. -/
theorem Accounted.set (hA : Accounted w) {t : Thread α k}
    (ht : t.pending = (w.threads i).pending) (hthreads : w'.threads = Function.update w.threads i t)
    (hmade : w'.made = w.made) (hlog : w'.log = w.log) : Accounted w' := by
  intro j
  rw [hmade, hlog, hthreads, hA j]
  by_cases hj : j = i
  · subst hj
    rw [Function.update_self, ht]
  · rw [Function.update_of_ne hj]

theorem Accounted.unlock (hA : Accounted w) {e : Event α k}
    (he : (w.threads i).pending = [e.call]) : Accounted (w.unlock i e) := by
  intro j
  have hmade : (w.unlock i e).made j = w.made j := rfl
  have hlog : ended j (w.unlock i e).log = _ := ended_append j i w.log e
  have hthreads : (w.unlock i e).threads = Function.update w.threads i .idle := rfl
  rw [hmade, hlog, hthreads, hA j]
  by_cases hj : j = i
  · subst hj
    rw [Function.update_self, he, if_pos rfl]
    exact (List.append_nil _).symm
  · rw [Function.update_of_ne hj, if_neg (Ne.symm hj), List.append_nil]

theorem Accounted.step {l : Label α ι k} (hA : Accounted w) (h : w.step l = some w') :
    Accounted w' := by
  cases l with
  | call i c =>
      cases hi : w.threads i with
      | idle =>
          simp only [World.step, hi] at h
          obtain rfl := Option.some.inj h
          intro j
          by_cases hj : j = i
          · subst hj
            simp [World.set, hA j, hi, Thread.pending]
          · simp [World.set, hA j, Function.update_of_ne hj]
      | _ => simp [World.step, hi] at h
  | advance i =>
      simp only [World.step] at h
      cases hi : w.threads i with
      | idle => simp [World.advance, hi] at h
      | waiting c =>
          simp only [World.advance, hi] at h
          split_ifs at h
          obtain rfl := Option.some.inj h
          refine hA.set ?_ rfl rfl rfl
          rw [hi]
          cases c <;> rfl
      | leaving e =>
          simp only [World.advance, hi] at h
          obtain rfl := Option.some.inj h
          exact hA.unlock (by rw [hi]; rfl)
      | storing | testing | loading =>
          simp only [World.advance, hi] at h
          split_ifs at h
          all_goals
            obtain rfl := Option.some.inj h
            exact hA.set (by rw [hi]; rfl) rfl rfl rfl
  | throw i =>
      cases hi : w.threads i with
      | storing v j =>
          simp only [World.step, hi] at h
          obtain rfl := Option.some.inj h
          exact hA.unlock (by rw [hi]; rfl)
      | loading out cur j =>
          simp only [World.step, hi] at h
          obtain rfl := Option.some.inj h
          exact hA.unlock (by rw [hi]; rfl)
      | _ => simp [World.step, hi] at h

/-- **Program order.** The calls of a thread stand in the order of the mutex as the thread
made them, each once; only the one it is in is missing. Together with `slot_linearizable`
this makes the order of the mutex a linearization. -/
theorem calls_in_program_order {initial : Parts α k} {ls : List (Label α ι k)}
    (h : World.run initial ls = some w) :
    ∀ i, w.made i = ended i w.log ++ (w.threads i).pending :=
  Run.exec_invariant (I := Accounted) (fun hA hstep => hA.step hstep) (fun _ => rfl) h

theorem calls_in_program_order_spoiled :
    ∃ w : World Nat (Fin 2) 2, World.run (fun _ => 0) (spoilingRun.take 12) = some w ∧
      w.log.length = 2 ∧ ∀ i, w.made i = ended i w.log ++ (w.threads i).pending := by
  have hex : ∃ w : World Nat (Fin 2) 2, World.run (fun _ => 0) (spoilingRun.take 12) = some w ∧
      w.log.length = 2 := Run.exists_exec (by decide)
  obtain ⟨w, hrun, hlog⟩ := hex
  exact ⟨w, hrun, hlog, calls_in_program_order hrun⟩

end XmBase.Concurrency.MutexMessageSlot
