import XmBase.Lib.Atomic
import Mathlib.Algebra.GroupWithZero.Nat
import Mathlib.Algebra.Notation.Pi.Basic
import Mathlib.Order.Lattice
import Mathlib.Order.Nat
/-!
# XmBase.Lib.WeakMemory

**Threads over a memory that keeps its past.** A location is not a value but the list of
the writes to it, in modification order, and a load may return any write that is not
older than what the thread has seen of the location. What a thread has seen is a `View`.
Views travel with the writes: a release write carries the view of its thread, and an
acquire load takes in the view of the write it returns. A relaxed load keeps that view
aside until an acquire fence, and a relaxed write carries what the thread had seen at its
last release fence.

This is the release/acquire fragment of the C++ model with fences and read-modify-writes,
without load buffering: a load returns a write that has been made. Writes go to the end of
the modification order. For a location with one writer at a time, and for one that is
written by read-modify-writes only, coherence leaves no other place.

Everything about views is about their order: they are functions into the numbers, so the
lattice is the pointwise one, and whatever a thread does only raises its view
(`ThreadView.Le`).
-/

namespace XmBase.WeakMemory

open Atomic (Access)

variable {Loc : Type*} {Val : Loc → Type*} {τ : Type*}

/-- For each location the newest write that is known of, by its place in the modification
order. -/
abbrev View (Loc : Type*) := Loc → Nat

/-- A write. The view is what a load with acquire order takes in. -/
structure Message (Loc : Type*) (α : Type*) where
  value : α
  view : View Loc

/-- The writes to each location, in modification order. -/
abbrev History (Val : Loc → Type*) := (l : Loc) → List (Message Loc (Val l))

/-- A memory that every thread has seen. -/
def History.init (m : Atomic.Mem Val) : History Val := fun l => [⟨m l, ⊥⟩]

/-- What a thread has seen, what it will have seen after an acquire fence, and what it had
seen at its last release fence. Only `cur` restricts what a load may return; the other two
wait for a fence. -/
structure ThreadView (Loc : Type*) where
  cur : View Loc
  acq : View Loc
  rel : View Loc
  cur_le_acq : cur ≤ acq

/-- A thread that has seen the initial writes only. -/
def ThreadView.init : ThreadView Loc := ⟨⊥, ⊥, ⊥, le_rfl⟩

/-- How an access is ordered, with the fences the thread executes right before and right
behind it. A fence touches nothing but the thread's own view, so it is no step. -/
structure Order where
  acquireFence : Bool
  acquire : Bool
  release : Bool
  releaseFence : Bool
  deriving DecidableEq, Repr

namespace Order

def relaxed : Order := ⟨false, false, false, false⟩

def acquiring : Order := ⟨false, true, false, false⟩

def releasing : Order := ⟨false, false, true, false⟩

/-- A relaxed access behind `atomic_thread_fence(acquire)`. -/
def fencedRelaxed : Order := ⟨true, false, false, false⟩

/-- A relaxed access in front of `atomic_thread_fence(release)`. -/
def relaxedFenced : Order := ⟨false, false, false, true⟩

end Order

/-- The location an access loads, if that is all it does. -/
def loadLoc? : Access Val τ → Option Loc
  | .load l _ => some l
  | _ => none

@[simp] theorem loadLoc?_load (l : Loc) (k : Val l → τ) : loadLoc? (.load l k) = some l := rfl

@[simp] theorem loadLoc?_map {υ : Type*} (f : τ → υ) (a : Access Val τ) :
    loadLoc? (a.map f) = loadLoc? a := by
  cases a <;> rfl

variable [DecidableEq Loc]

namespace ThreadView

/-- What the access starts from. -/
def start (v : ThreadView Loc) (o : Order) : View Loc := if o.acquireFence then v.acq else v.cur

/-- The thread has seen the write number `t` of `l`, and takes `view` in. A relaxed load
takes the view into `acq` only. -/
def see (v : ThreadView Loc) (o : Order) (l : Loc) (t : Nat) (view : View Loc) : ThreadView Loc :=
  let cur := v.start o ⊔ Pi.single l t ⊔ if o.acquire then view else ⊥
  { cur := cur
    acq := v.acq ⊔ cur ⊔ view
    rel := if o.releaseFence then cur else v.rel
    cur_le_acq := le_sup_of_le_left le_sup_right }

/-- The view that write number `t` of `l` carries. -/
def released (v : ThreadView Loc) (o : Order) (l : Loc) (t : Nat) : View Loc :=
  (if o.release then v.start o else v.rel) ⊔ Pi.single l t

end ThreadView

/-- Perform the access; a load returns the write number `t`, if the thread may. -/
def perform (o : Order) (t : Nat) (h : History Val) (v : ThreadView Loc) :
    Access Val τ → Option (History Val × ThreadView Loc × τ)
  | .load l k =>
      if v.start o l ≤ t then
        (h l)[t]?.map fun m => (h, v.see o l t m.view, k m.value)
      else none
  | .store l x s =>
      some (Function.update h l (h l ++ [⟨x, v.released o l (h l).length⟩]),
        v.see o l (h l).length ⊥, s)
  | .rmw l f k =>
      -- it is written right behind the write it reads, so it reads the newest one, and it
      -- continues the release sequence it finds
      (h l).getLast?.map fun m =>
        (Function.update h l
            (h l ++ [⟨f m.value, v.released o l (h l).length ⊔ m.view⟩]),
          v.see o l (h l).length m.view, k m.value)

section

variable {o : Order} {t : Nat} {h h' : History Val} {v v' : ThreadView Loc} {l : Loc} {s : τ}

/-- What a load can do. It returns a write that the view does not exclude, and changes no
history. -/
theorem perform_load {k : Val l → τ} (hp : perform o t h v (.load l k) = some (h', v', s)) :
    ∃ m, (h l)[t]? = some m ∧ v.start o l ≤ t ∧ h' = h ∧ v' = v.see o l t m.view ∧
      s = k m.value := by
  rw [perform] at hp
  split at hp
  · next hle =>
    obtain ⟨m, hm, heq⟩ := Option.map_eq_some_iff.mp hp
    obtain ⟨rfl, hrest⟩ := Prod.mk.inj heq
    obtain ⟨rfl, rfl⟩ := Prod.mk.inj hrest
    exact ⟨m, hm, hle, rfl, rfl, rfl⟩
  · cases hp

/-- The same for an access that is known to be a load, by what it makes of a memory with
the loaded value in it. -/
theorem perform_of_load {a : Access Val τ} (ha : loadLoc? a = some l)
    (hp : perform o t h v a = some (h', v', s)) :
    ∃ m, (h l)[t]? = some m ∧ v.start o l ≤ t ∧ h' = h ∧ v' = v.see o l t m.view ∧
      ∀ mem : Atomic.Mem Val, mem l = m.value → s = (a.exec mem).2 := by
  obtain ⟨l', k⟩ | _ | _ := a
  · obtain rfl := Option.some.inj ha
    obtain ⟨m, hm, hle, rfl, rfl, rfl⟩ := perform_load hp
    refine ⟨m, hm, hle, rfl, rfl, ?_⟩
    intro mem hmem
    rw [Access.exec_load, hmem]
  · cases ha
  · cases ha

/-- One more write. -/
theorem History.length_append (h : History Val) (l l' : Loc) (m : Message Loc (Val l)) :
    (Function.update h l (h l ++ [m]) l').length = (h l').length + if l' = l then 1 else 0 := by
  by_cases hl : l' = l
  · subst hl
    rw [Function.update_self, if_pos rfl, List.length_append, List.length_singleton]
  · rw [Function.update_of_ne hl, if_neg hl, Nat.add_zero]

theorem History.length_append_of_ne {l l' : Loc} (hl : l' ≠ l) (h : History Val)
    (m : Message Loc (Val l)) : (Function.update h l (h l ++ [m]) l').length = (h l').length := by
  rw [Function.update_of_ne hl]

/-- What holds of every write, and of one more. -/
theorem History.forall_append {P : (l : Loc) → Nat → Message Loc (Val l) → Prop}
    (hP : ∀ l t m, (h l)[t]? = some m → P l t m) {m : Message Loc (Val l)}
    (hm : P l (h l).length m) :
    ∀ l' t' m', (Function.update h l (h l ++ [m]) l')[t']? = some m' → P l' t' m' := by
  intro l' t' m' hm'
  by_cases hl : l' = l
  · subst hl
    rw [Function.update_self, List.getElem?_append] at hm'
    split at hm'
    · exact hP _ _ _ hm'
    · next hge =>
      rw [List.getElem?_singleton] at hm'
      split at hm'
      · next ht =>
        obtain rfl := Option.some.inj hm'
        obtain rfl : t' = (h l').length := by omega
        exact hm
      · cases hm'
  · rw [Function.update_of_ne hl] at hm'
    exact hP _ _ _ hm'

/-- What a store does. The write goes to the end of its location's order. -/
theorem perform_store {x : Val l} {s₀ : τ}
    (hp : perform o t h v (.store l x s₀) = some (h', v', s)) :
    h' = Function.update h l (h l ++ [⟨x, v.released o l (h l).length⟩]) ∧
      v' = v.see o l (h l).length ⊥ ∧ s = s₀ := by
  obtain ⟨rfl, hrest⟩ := Prod.mk.inj (Option.some.inj hp)
  obtain ⟨rfl, rfl⟩ := Prod.mk.inj hrest
  exact ⟨rfl, rfl, rfl⟩

/-- What a read-modify-write does. It reads the last write and puts its own right behind it. -/
theorem perform_rmw {f : Val l → Val l} {k : Val l → τ}
    (hp : perform o t h v (.rmw l f k) = some (h', v', s)) :
    ∃ m, (h l).getLast? = some m ∧
      h' = Function.update h l
        (h l ++ [⟨f m.value, v.released o l (h l).length ⊔ m.view⟩]) ∧
      v' = v.see o l (h l).length m.view ∧ s = k m.value := by
  obtain ⟨m, hm, heq⟩ := Option.map_eq_some_iff.mp hp
  obtain ⟨rfl, hrest⟩ := Prod.mk.inj heq
  obtain ⟨rfl, rfl⟩ := Prod.mk.inj hrest
  exact ⟨m, hm, rfl, rfl, rfl⟩

end

namespace ThreadView

variable {v v' v'' : ThreadView Loc} {o : Order} {l : Loc} {t : Nat} {view : View Loc}

/-- The thread has seen more. It is the order in which invariants about views are stable;
the view of the last release fence is no part of it, since only what the thread stores
depends on that. -/
structure Le (v v' : ThreadView Loc) : Prop where
  cur : v.cur ≤ v'.cur
  acq : v.acq ≤ v'.acq

omit [DecidableEq Loc] in
theorem Le.refl (v : ThreadView Loc) : v.Le v := ⟨le_rfl, le_rfl⟩

omit [DecidableEq Loc] in
theorem Le.trans (h : v.Le v') (h' : v'.Le v'') : v.Le v'' :=
  ⟨h.cur.trans h'.cur, h.acq.trans h'.acq⟩

omit [DecidableEq Loc] in
theorem cur_le_start (v : ThreadView Loc) (o : Order) : v.cur ≤ v.start o := by
  unfold start
  split
  · exact v.cur_le_acq
  · exact le_rfl

theorem start_le_see (v : ThreadView Loc) (o : Order) (l : Loc) (t : Nat) (view : View Loc) :
    v.start o ≤ (v.see o l t view).cur :=
  le_sup_of_le_left le_sup_left

/-- **An access only raises the view.** -/
theorem le_see (v : ThreadView Loc) (o : Order) (l : Loc) (t : Nat) (view : View Loc) :
    v.Le (v.see o l t view) where
  cur := (v.cur_le_start o).trans (v.start_le_see o l t view)
  acq := le_sup_of_le_left le_sup_left

theorem le_see_self (v : ThreadView Loc) (o : Order) (l : Loc) (t : Nat) (view : View Loc) :
    t ≤ (v.see o l t view).cur l := by
  have hle : Pi.single l t ≤ (v.see o l t view).cur := le_sup_of_le_left le_sup_right
  have := hle l
  rwa [Pi.single_eq_same] at this

/-- An acquire load takes in what the write carries. -/
theorem view_le_see (ho : o.acquire = true) : view ≤ (v.see o l t view).cur := by
  simp only [see, ho, if_true]
  exact le_sup_right

/-- Any load does so for the next acquire fence. -/
theorem view_le_acq (v : ThreadView Loc) (o : Order) (l : Loc) (t : Nat) (view : View Loc) :
    view ≤ (v.see o l t view).acq :=
  le_sup_right

/-- A release write carries all its thread has seen. -/
theorem cur_le_released (ho : o.release = true) : v.cur ≤ v.released o l t := by
  unfold released
  rw [if_pos ho]
  exact le_sup_of_le_left (v.cur_le_start o)

/-- A relaxed write carries what its thread had seen at the fence. -/
theorem rel_le_released (ho : o.release = false) : v.rel ≤ v.released o l t := by
  unfold released
  rw [ho, if_neg Bool.false_ne_true]
  exact le_sup_left

/-- The thread takes in all that another one has seen: some synchronization between the
two that is not on the locations at hand. -/
def join (v : ThreadView Loc) (view : View Loc) : ThreadView Loc where
  cur := v.cur ⊔ view
  acq := v.acq ⊔ view
  rel := v.rel
  cur_le_acq := sup_le_sup_right v.cur_le_acq view

omit [DecidableEq Loc] in
theorem le_join (v : ThreadView Loc) (view : View Loc) : v.Le (v.join view) :=
  ⟨le_sup_left, le_sup_left⟩

theorem see_rel_of_fence (ho : o.releaseFence = true) :
    (v.see o l t view).rel = (v.see o l t view).cur := by
  simp only [see, ho, if_true]

theorem see_rel_of_not_fence (ho : o.releaseFence = false) : (v.see o l t view).rel = v.rel := by
  simp only [see, ho, Bool.false_eq_true, if_false]

end ThreadView

/-! ### A thread that has seen every write

Such as the only writer of a location: what it loads is what it has stored. -/

section

variable {o : Order} {t : Nat} {h h' : History Val} {v v' : ThreadView Loc} {l l' : Loc} {s : τ}

/-- The thread has seen the last write to the location. This is how the only writer of a
location comes to know what it holds. -/
def UpToDate (h : History Val) (v : ThreadView Loc) (l : Loc) : Prop := (h l).length ≤ v.cur l + 1

omit [DecidableEq Loc] in
theorem UpToDate.init (m : Atomic.Mem Val) (l : Loc) : UpToDate (.init m) ThreadView.init l :=
  le_rfl

omit [DecidableEq Loc] in
/-- It stays so as long as nobody writes there. -/
theorem UpToDate.mono (hu : UpToDate h v l) (hlen : (h' l).length = (h l).length)
    (hv : v.Le v') : UpToDate h' v' l := by
  unfold UpToDate at hu ⊢
  have hle : v.cur l ≤ v'.cur l := hv.cur l
  omega

omit [DecidableEq Loc] in
/-- It loads the last write. -/
theorem UpToDate.getLast {m : Message Loc (Val l)} (hu : UpToDate h v l) (hm : (h l)[t]? = some m)
    (hle : v.start o l ≤ t) : (h l).getLast? = some m := by
  have hlt := (List.getElem?_eq_some_iff.mp hm).1
  have hstart : v.cur l ≤ v.start o l := v.cur_le_start o l
  unfold UpToDate at hu
  rw [List.getLast?_eq_getElem?, ← hm]
  congr 1
  omega

/-- It does not mind what others write elsewhere. -/
theorem UpToDate.append_of_ne (hu : UpToDate h v l') (hl : l' ≠ l) (m : Message Loc (Val l)) :
    UpToDate (Function.update h l (h l ++ [m])) v l' :=
  hu.mono (History.length_append_of_ne hl h m) (.refl _)

/-- It has seen what it stores. -/
theorem UpToDate.store (hu : UpToDate h v l') (o : Order) (l : Loc) (m : Message Loc (Val l))
    (view : View Loc) :
    UpToDate (Function.update h l (h l ++ [m])) (v.see o l (h l).length view) l' := by
  by_cases hl : l' = l
  · subst hl
    unfold UpToDate
    rw [Function.update_self, List.length_append, List.length_singleton]
    exact Nat.succ_le_succ (ThreadView.le_see_self _ _ _ _ _)
  · exact (hu.append_of_ne hl m).mono rfl (ThreadView.le_see _ _ _ _ _)

end

end XmBase.WeakMemory
