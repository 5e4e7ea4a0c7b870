import XmBase.Concurrency.WeakFifo
/-!
# XmBase.Concurrency.WorkerInbox

The bounded worker inbox (`examples/concurrency_worker_inbox_example.cpp`): a producer and a
worker over one `SpscQueue`, with an `EventCount`
(`include/xmbase/concurrency/event_count.hpp`) for the worker to park on and a flag for it to
stop. It is where the two primitives are used together, so everything is at the granularity
of single accesses, with the memory orders of the source.

* The queue is `WeakQueue.World`, driven by the two threads.
* The epoch word and the flag are stored with release and loaded with acquire order, so
  beside its value each of their writes carries what its thread had seen of the queue. What
  the queue's own indices carry about the word and the flag is not used.
* The kernel may find an old epoch, but none older than what a `FUTEX_WAKE` before it had
  seen: both hold the lock of the same bucket. Comparing and blocking are one step.

The predicate is `Size() != 0 || shutdown`: three loads, none of which has to return the
newest write. **A worker that sleeps although there is work, or although it should stop, is
about to be woken** (`never_sleeps_on_work`).
-/

namespace XmBase.Concurrency.WorkerInbox

open Atomic (Access)
open WeakMemory (View ThreadView Order Message History Place UpToDate perform)
open SpscQueue (Elem Loc effectiveDepth)

/-- The atomics beside the queue: `EventCount::internal_`, and `shutdown`. -/
inductive Sync
  | word
  | shutdown
  deriving DecidableEq, Repr

variable {α : Type} {parts : Nat}

/-- What a write carries of the queue. -/
abbrev QueueView (parts : Nat) := View (Place (Loc parts))

@[reducible] def SyncVal (parts : Nat) : Sync → Type
  | .word => UInt32 × QueueView parts
  | .shutdown => Bool × QueueView parts

/-- Where `main` is. After `NotifyAll` it goes on with command `i`, or is done. -/
inductive Main
  /-- The head of the loop. -/
  | next (i : Nat)
  /-- Inside `TryPush`. -/
  | pushing (i : Nat)
  /-- `shutdown.store(true)`. -/
  | storeShutdown
  /-- `word_->fetch_add(1)`. -/
  | fetchAdd (i : Option Nat)
  /-- `Wake()`. -/
  | wake (i : Option Nat)
  /-- `worker.join()`. -/
  | join
  deriving DecidableEq, Repr

/-- Where the worker is. A predicate is evaluated before going to sleep, with the epoch that
was loaded, or past the deadline. -/
inductive Worker
  /-- Inside `TryPop`. -/
  | popping
  /-- `shutdown.load()` in the loop. -/
  | checkShutdown
  /-- `word_->load()`. -/
  | loadWord
  /-- Inside `Size` of the predicate. -/
  | sizing (gen : Option (UInt32 × Nat))
  /-- `shutdown.load()` of the predicate. -/
  | loadShutdown (gen : Option (UInt32 × Nat))
  /-- `deadline_at - Now()`. -/
  | deadline (gen : UInt32) (stamp : Nat)
  /-- `WaitOn(gen, remaining)`, before the kernel has looked at the word. -/
  | futexWait (gen : UInt32) (stamp : Nat)
  | blocked (stamp : Nat)
  | stopped
  deriving DecidableEq, Repr

/-- The whole system. The stamps of the worker are history variables: the number of the write
that an epoch came from. -/
structure World (α : Type) (parts : Nat) where
  queue : WeakQueue.World α parts
  sync : History (SyncVal parts)
  mainView : ThreadView Sync
  workerView : ThreadView Sync
  /-- The newest epoch a `FUTEX_WAKE` had seen. -/
  kernel : Nat
  main : Main
  worker : Worker
  /-- The worker's `cmd`. -/
  cmd : Elem α parts
  sent : Nat
  rejected : Nat

/-- Both atomics, as they are constructed. -/
def initialSync (parts : Nat) : History (SyncVal parts)
  | .word => [⟨((0 : UInt32), ⊥), ⊥⟩]
  | .shutdown => [⟨(false, ⊥), ⊥⟩]

/-- The worker calls `TryPop(cmd)`. -/
def callPop (w : World α parts) : Option (World α parts) :=
  (w.queue.step (.callPop w.cmd)).map fun queue => { w with queue := queue, worker := .popping }

/-- The worker evaluates the predicate. -/
def callSize (gen : Option (UInt32 × Nat)) (w : World α parts) : Option (World α parts) :=
  (w.queue.step .callSize).map fun queue => { w with queue := queue, worker := .sizing gen }

/-- A worker that has been woken. -/
def Worker.woken : Worker → Worker
  | .blocked _ => .loadWord
  | pc => pc

/-- The next step of `main`, which pushes `total` commands. -/
def stepMain (total : Nat) (command : Nat → Elem α parts) (t : Nat) (w : World α parts) :
    Option (World α parts) :=
  match w.main with
  | .next i =>
      if i < total then
        (w.queue.step (.callPush (command i))).map fun queue =>
          { w with queue := queue, main := .pushing i }
      else some { w with main := .storeShutdown }
  | .pushing i =>
      (w.queue.step (.produce t)).map fun queue =>
        match queue.producer with
        | .pushed _ _ true =>
            { w with queue := queue, main := .fetchAdd (some (i + 1)), sent := w.sent + 1 }
        | .pushed _ _ false =>
            { w with queue := queue, main := .next (i + 1), rejected := w.rejected + 1 }
        | _ => { w with queue := queue }
  | .storeShutdown =>
      (perform .releasing t w.sync w.mainView
        (.store .shutdown (true, w.queue.producerView.cur) ())).map fun (sync, view, _) =>
          { w with sync := sync, mainView := view, main := .fetchAdd none }
  | .fetchAdd i =>
      (perform .releasing t w.sync w.mainView
        (.rmw .word (fun (gen, seen) => (gen + 1, seen ⊔ w.queue.producerView.cur))
          fun _ => ())).map fun (sync, view, _) =>
            { w with sync := sync, mainView := view, main := .wake i }
  | .wake i => some { w with
      kernel := max w.kernel (w.mainView.cur .word)
      worker := w.worker.woken
      main := match i with
        | some i => .next i
        | none => .join }
  | .join => none

/-- The worker loads an atomic beside the queue. -/
def loadSync {ν : Type} (l : Sync) (k : SyncVal parts l → ν × QueueView parts) (t : Nat)
    (w : World α parts) : Option (ν × World α parts) :=
  (perform .acquiring t w.sync w.workerView (.load l k)).map fun (_, view, (x, seen)) =>
    (x, { w with workerView := view, queue := w.queue.hear seen })

/-- The next step of the worker; `late` is what the clock says at a `deadline`. -/
def stepWorker (t : Nat) (late : Bool) (w : World α parts) : Option (World α parts) :=
  match w.worker with
  | .popping =>
      (w.queue.step (.consume t)).bind fun queue =>
        match queue.consumer with
        | .popped _ true out => callPop { w with queue := queue, cmd := out }
        | .popped _ false _ => some { w with queue := queue, worker := .checkShutdown }
        | _ => some { w with queue := queue }
  | .checkShutdown =>
      (loadSync .shutdown id t w).map fun (stop, w) =>
        { w with worker := if stop then .stopped else .loadWord }
  | .loadWord =>
      (loadSync .word id t w).bind fun (gen, w) => callSize (some (gen, t)) w
  | .sizing gen =>
      (w.queue.step (.consume t)).bind fun queue =>
        match queue.consumer with
        | .sized _ n =>
            if n ≠ 0 then callPop { w with queue := queue }
            else some { w with queue := queue, worker := .loadShutdown gen }
        | _ => some { w with queue := queue }
  | .loadShutdown gen =>
      (loadSync .shutdown id t w).bind fun (stop, w) =>
        match stop, gen with
        | false, some (gen, stamp) => some { w with worker := .deadline gen stamp }
        | _, _ => callPop w
  | .deadline gen stamp =>
      if late then callSize none w else some { w with worker := .futexWait gen stamp }
  | .futexWait gen stamp =>
      if max w.kernel (w.workerView.cur .word) ≤ t then
        (w.sync .word)[t]?.map fun m =>
          { w with worker := if m.value.1 = gen then .blocked stamp else .loadWord }
      else none
  | .blocked _ | .stopped => none

/-- Who moves. -/
inductive Label
  | main (t : Nat)
  | worker (t : Nat) (late : Bool)
  /-- `FUTEX_WAIT` returns by a timeout, a signal or for no reason. -/
  | unblock
  deriving DecidableEq, Repr

def World.step (total : Nat) (command : Nat → Elem α parts) (w : World α parts) :
    Label → Option (World α parts)
  | .main t => stepMain total command t w
  | .worker t late => stepWorker t late w
  | .unblock =>
      match w.worker with
      | .blocked _ => some { w with worker := .loadWord }
      | _ => none

/-- Both threads at their first steps. -/
def World.init (depth : UInt32) (junk : Nat → Elem α parts) (cmd : Elem α parts) :
    World α parts where
  queue := { WeakQueue.World.init depth junk with consumer := .popping (.loadCapacity cmd) ⟨0, 0⟩ }
  sync := initialSync parts
  mainView := .init
  workerView := .init
  kernel := 0
  main := .next 0
  worker := .popping
  cmd := cmd
  sent := 0
  rejected := 0

def World.run (depth : UInt32) (junk : Nat → Elem α parts) (cmd : Elem α parts) (total : Nat)
    (command : Nat → Elem α parts) (ls : List Label) : Option (World α parts) :=
  Run.exec (World.step total command) (World.init depth junk cmd) ls

/-! ### The invariant

The worker's predicate is three loads of old writes, so that it said "nothing to do" does
not mean that there is nothing. What helps is the epoch. It was loaded first, with acquire
order, so the worker knows every command that a notification behind that epoch or an earlier
one was for (`Epoch`), and whatever the predicate missed is newer than the epoch. Then a
notification is owed, or the epoch has moved and the kernel sends the worker back, or `main`
is about to wake it. -/

/-- The commands `main` has pushed or failed to push. -/
def Main.attempts (total : Nat) : Main → Nat
  | .next i | .pushing i | .fetchAdd (some i) | .wake (some i) => i
  | _ => total

/-- The notification `main` owes for its last store. The epoch counts the sent commands and
the stored flag, less this one. -/
def Main.owes : Main → Nat
  | .fetchAdd _ => 1
  | _ => 0

/-- `main` is about to wake the worker. -/
def Main.notifying : Main → Bool
  | .fetchAdd _ | .wake _ => true
  | _ => false

/-- `shutdown` is stored. -/
def Main.stored : Main → Nat
  | .fetchAdd none | .wake none | .join => 1
  | _ => 0

/-- The epoch `gen` came from the write number `stamp`. What that write carries is no more
than `tail` values in the queue, and no newer flag than number `flag`. It says what the
worker may conclude from having loaded that epoch. -/
def Epoch (sync : History (SyncVal parts)) (gen : UInt32) (stamp tail flag : Nat) : Prop :=
  ∃ m : Message Sync (UInt32 × QueueView parts),
    (sync .word)[stamp]? = some m ∧ m.value.1 = gen ∧ m.value.2 (.inl .tail) ≤ tail ∧
      m.view .shutdown ≤ flag

/-- What the write number `k` says. -/
def Numbered : (l : Sync) → Nat → Message Sync (SyncVal parts l) → Prop
  | .word, k, m => m.value.1 = .ofNat k
  | .shutdown, k, m => m.value.1 = true ↔ 0 < k

/-- What the worker knows at its program counter. Behind the predicate the epoch knows of
nothing that has not been popped. -/
def WorkerInv (w : World α parts) : Worker → Prop
  | .popping | .checkShutdown | .loadWord => True
  | .sizing gen => ∃ pc log, w.queue.consumer = .sizing pc log ∧
      ∀ g stamp, gen = some (g, stamp) →
        Epoch w.sync g stamp log.floor (w.workerView.cur .shutdown)
  | .loadShutdown gen => ∀ g stamp, gen = some (g, stamp) →
      Epoch w.sync g stamp w.queue.popped.length (w.workerView.cur .shutdown)
  | .deadline g stamp | .futexWait g stamp => Epoch w.sync g stamp w.queue.popped.length 0
  | .blocked stamp => w.kernel ≤ stamp ∧ ∃ g, Epoch w.sync g stamp w.queue.popped.length 0
  | .stopped => 1 < (w.sync .shutdown).length

/-- The invariant of the system. `moves` is the count that the coverage rests on: each sent
command, and the flag, moves the epoch once, and at most one of these moves is outstanding. -/
structure Inv (C : UInt64) (total : Nat) (command : Nat → Elem α parts) (w : World α parts) :
    Prop where
  queue : WeakQueue.Inv C w.queue
  sent : w.sent = w.queue.accepted.length
  attempts : w.sent + w.rejected = w.main.attempts total
  attempts_le : w.main.attempts total ≤ total
  commands : w.queue.accepted.Sublist ((List.range (w.main.attempts total)).map command)
  numbered : ∀ l k m, (w.sync l)[k]? = some m → Numbered l k m
  moves : (w.sync .word).length + w.main.owes = w.sent + (w.sync .shutdown).length
  stored : (w.sync .shutdown).length = 1 + w.main.stored
  knows : ∀ l, UpToDate w.sync w.mainView l
  settled : w.main.owes = 0 → ∀ m : Message Sync (UInt32 × QueueView parts),
    (w.sync .word).getLast? = some m →
      w.sent ≤ m.value.2 (.inl .tail) ∧ (w.sync .shutdown).length ≤ m.view .shutdown + 1
  kernel : (∀ i, w.main ≠ .wake i) → (w.sync .word).length ≤ w.kernel + 1
  pushing : ∀ i, w.main = .pushing i →
    i < total ∧ ∃ pc log, w.queue.producer = .pushing (command i) pc log
  worker : WorkerInv w w.worker

variable {C : UInt64} {total : Nat} {command : Nat → Elem α parts} {w w' : World α parts} {t : Nat}

/-- **What covers a worker that sleeps.** It is the invariant, read at a blocked worker. -/
theorem Inv.awake (hi : Inv C total command w) {stamp : Nat} (hw : w.worker = .blocked stamp)
    (hwork : w.queue.popped.length < w.queue.accepted.length ∨ 1 < (w.sync .shutdown).length) :
    w.main.notifying = true := by
  have hworker := hi.worker
  rw [hw] at hworker
  obtain ⟨hk, g, m, hm, -, htail, hflag⟩ := hworker
  by_contra hnot
  have howes : w.main.owes = 0 := by
    cases hmain : w.main with
    | fetchAdd i => simp [hmain, Main.notifying] at hnot
    | _ => rfl
  have hlen := hi.kernel (fun i hmain => by simp [hmain, Main.notifying] at hnot)
  -- its epoch is the last one, and that carries all there is
  have hlast : (w.sync .word).getLast? = some m := by
    have hlt := (List.getElem?_eq_some_iff.mp hm).1
    rw [List.getLast?_eq_getElem?, ← hm]
    congr 1
    omega
  obtain ⟨hsent, hstored⟩ := hi.settled howes m hlast
  have hacc := hi.sent
  rcases hwork with hwork | hwork
  · omega
  · omega

/-! ### The steps of `main`

`main` moves the queue, the flag and the epoch. What the worker knows is about older writes
and stays true; only the last step, the wake, has to look at a worker that is asleep. -/

theorem Epoch.mono {sync sync' : History (SyncVal parts)} {g : UInt32}
    {stamp tail tail' flag flag' : Nat} (h : Epoch sync g stamp tail flag)
    (hs : sync .word <+: sync' .word) (ht : tail ≤ tail') (hf : flag ≤ flag') :
    Epoch sync' g stamp tail' flag' := by
  obtain ⟨m, hm, hg, htail, hflag⟩ := h
  exact ⟨m, Word.getElem?_of_prefix hs hm, hg, htail.trans ht, hflag.trans hf⟩

/-- What the worker knows survives a step of `main`, unless that wakes it. -/
theorem WorkerInv.other (hw : WorkerInv w w.worker) (hpop : w'.queue.popped = w.queue.popped)
    (hcons : w'.queue.consumer = w.queue.consumer) (hview : w'.workerView = w.workerView)
    (hkernel : w'.kernel = w.kernel) (hs : ∀ l, w.sync l <+: w'.sync l) :
    WorkerInv w' w.worker := by
  cases hpc : w.worker with
  | popping | checkShutdown | loadWord => trivial
  | sizing gen =>
      rw [hpc] at hw
      obtain ⟨pc, log, hc, hepoch⟩ := hw
      refine ⟨pc, log, hcons.trans hc, ?_⟩
      intro g stamp hgen
      exact (hepoch g stamp hgen).mono (hs _) le_rfl (by rw [hview])
  | loadShutdown gen =>
      rw [hpc] at hw
      intro g stamp hgen
      exact (hw g stamp hgen).mono (hs _) (by rw [hpop]) (by rw [hview])
  | deadline g stamp | futexWait g stamp =>
      rw [hpc] at hw
      exact Epoch.mono hw (hs _) (by rw [hpop]) le_rfl
  | blocked stamp =>
      rw [hpc] at hw
      obtain ⟨hk, g, hepoch⟩ := hw
      exact ⟨hkernel ▸ hk, g, hepoch.mono (hs _) (by rw [hpop]) le_rfl⟩
  | stopped =>
      rw [hpc] at hw
      exact hw.trans_le (hs .shutdown).length_le

/-- The indices of the queue do not wrap. There are no more commands than the epoch can
count. -/
theorem Inv.accepted_lt (hi : Inv C total command w) (htotal : total + 1 < 2 ^ 32) :
    w.queue.accepted.length + 1 < 2 ^ 64 := by
  have := hi.sent
  have := hi.attempts
  have := hi.attempts_le
  omega

/-- `main` at the head of its loop. -/
theorem Inv.main_next (hi : Inv C total command w) {i : Nat} (hmain : w.main = .next i)
    (htotal : total + 1 < 2 ^ 32) (h : stepMain total command t w = some w') :
    Inv C total command w' := by
  have hatt := hi.attempts
  have hcmd := hi.commands
  have hmoves := hi.moves
  have hstored := hi.stored
  have hkernel := hi.kernel (by simp [hmain])
  have hset := hi.settled (by rw [hmain]; rfl)
  have hatt_le := hi.attempts_le
  rw [hmain] at hatt hcmd hmoves hstored hatt_le
  simp only [stepMain, hmain] at h
  split_ifs at h with hlt
  · obtain ⟨queue, hq, rfl⟩ := Option.map_eq_some_iff.mp h
    have hlen := hi.accepted_lt htotal
    obtain ⟨hacc, hpop, hcons, hprod⟩ : queue.accepted = w.queue.accepted ∧
        queue.popped = w.queue.popped ∧ queue.consumer = w.queue.consumer ∧
        ∃ pc log, queue.producer = .pushing (command i) pc log := by
      simp only [WeakQueue.World.step] at hq
      split_ifs at hq
      obtain rfl := Option.some.inj hq
      exact ⟨rfl, rfl, rfl, _, _, rfl⟩
    exact { hi with
      queue := hi.queue.step hq (by rw [hacc]; omega)
      sent := by rw [hacc]; exact hi.sent
      attempts := hatt
      attempts_le := hatt_le
      commands := by rw [hacc]; exact hcmd
      moves := hmoves
      stored := hstored
      settled := fun _ => hset
      kernel := fun _ => hkernel
      pushing := fun j hj => by obtain rfl := Main.pushing.inj hj; exact ⟨hlt, hprod⟩
      worker := hi.worker.other hpop hcons rfl rfl fun _ => List.prefix_refl _ }
  · obtain rfl := Option.some.inj h
    obtain rfl : i = total := by simp only [Main.attempts] at hatt_le; omega
    exact { hi with
      attempts := hatt
      attempts_le := le_rfl
      commands := hcmd
      moves := hmoves
      stored := hstored
      settled := fun _ => hset
      kernel := fun _ => hkernel
      pushing := fun j hj => by cases hj
      worker := hi.worker.other rfl rfl rfl rfl fun _ => List.prefix_refl _ }

/-- `main` inside `TryPush`. -/
theorem Inv.main_pushing (hi : Inv C total command w) {i : Nat} (hmain : w.main = .pushing i)
    (htotal : total + 1 < 2 ^ 32) (h : stepMain total command t w = some w') :
    Inv C total command w' := by
  have hatt := hi.attempts
  have hcmd := hi.commands
  have hmoves := hi.moves
  have hstored := hi.stored
  have hkernel := hi.kernel (by simp [hmain])
  have hset := hi.settled (by rw [hmain]; rfl)
  have hsent := hi.sent
  rw [hmain] at hatt hcmd hmoves hstored
  obtain ⟨hlt, pc, log, hpr⟩ := hi.pushing i hmain
  simp only [stepMain, hmain] at h
  obtain ⟨queue, hq, rfl⟩ := Option.map_eq_some_iff.mp h
  have hlen := hi.accepted_lt htotal
  obtain ⟨⟨hpop, hcons⟩, ⟨pc', log', hpr', hacc⟩ | ⟨log', hpr', hacc⟩ | ⟨log', hpr', hacc⟩⟩ :=
    WeakQueue.World.step_pushing hpr hq
  · have hqueue := hi.queue.step hq (by rw [hacc]; omega)
    simp only [hpr']
    exact { hi with
      queue := hqueue
      sent := by rw [hacc]; exact hsent
      attempts := hatt
      attempts_le := hlt.le
      commands := by rw [hacc]; exact hcmd
      moves := hmoves
      stored := hstored
      settled := fun _ => hset
      kernel := fun _ => hkernel
      pushing := fun j hj => by
        obtain rfl := Main.pushing.inj hj
        exact ⟨hlt, pc', log', hpr'⟩
      worker := hi.worker.other hpop hcons rfl rfl fun _ => List.prefix_refl _ }
  · have hqueue := hi.queue.step hq
      (by rw [hacc, List.length_append, List.length_singleton]; omega)
    simp only [hpr']
    simp only [Main.attempts, Main.owes, Main.stored] at hatt hcmd hmoves hstored
    exact { hi with
      queue := hqueue
      sent := by
        rw [hacc, List.length_append, List.length_singleton, ← hsent]
      attempts := by simp only [Main.attempts]; omega
      attempts_le := hlt
      commands := by
        rw [hacc]
        simp only [Main.attempts, List.range_succ, List.map_append, List.map_singleton]
        exact hcmd.append (List.Sublist.refl _)
      moves := by simp only [Main.owes]; omega
      stored := hstored
      settled := fun h0 => by cases h0
      kernel := fun _ => hkernel
      pushing := fun j hj => by cases hj
      worker := hi.worker.other hpop hcons rfl rfl fun _ => List.prefix_refl _ }
  · have hqueue := hi.queue.step hq (by rw [hacc]; omega)
    simp only [hpr']
    simp only [Main.attempts, Main.owes, Main.stored] at hatt hcmd hmoves hstored
    exact { hi with
      queue := hqueue
      sent := by rw [hacc]; exact hsent
      attempts := by simp only [Main.attempts]; omega
      attempts_le := hlt
      commands := by
        rw [hacc]
        simp only [Main.attempts, List.range_succ, List.map_append]
        exact hcmd.trans (List.sublist_append_left _ _)
      moves := hmoves
      stored := hstored
      settled := fun _ => hset
      kernel := fun _ => hkernel
      pushing := fun j hj => by cases hj
      worker := hi.worker.other hpop hcons rfl rfl fun _ => List.prefix_refl _ }

theorem History.prefix_append (sync : History (SyncVal parts)) {l : Sync}
    (m : Message Sync (SyncVal parts l)) (l' : Sync) :
    sync l' <+: Function.update sync l (sync l ++ [m]) l' := by
  by_cases hl : l' = l
  · subst hl
    rw [Function.update_self]
    exact List.prefix_append _ _
  · rw [Function.update_of_ne hl]

/-- `main` stores `shutdown`. The notification for it is owed from here on. -/
theorem Inv.main_storeShutdown (hi : Inv C total command w) (hmain : w.main = .storeShutdown)
    (h : stepMain total command t w = some w') : Inv C total command w' := by
  have hatt := hi.attempts
  have hcmd := hi.commands
  have hmoves := hi.moves
  have hstored := hi.stored
  have hkernel := hi.kernel (by simp [hmain])
  rw [hmain] at hatt hcmd hmoves hstored
  simp only [Main.owes, Main.stored] at hmoves hstored
  simp only [stepMain, hmain] at h
  obtain ⟨⟨sync, view, _⟩, hp, rfl⟩ := Option.map_eq_some_iff.mp h
  obtain ⟨rfl, rfl, -⟩ := WeakMemory.perform_store hp
  have hword (m : Message Sync (SyncVal parts .shutdown)) :
      Function.update w.sync .shutdown (w.sync .shutdown ++ [m]) .word = w.sync .word :=
    Function.update_of_ne (by decide) _ _
  exact { hi with
    attempts := hatt
    attempts_le := le_rfl
    commands := hcmd
    numbered := by
      refine WeakMemory.History.forall_append hi.numbered ?_
      exact ⟨fun _ => by omega, fun _ => rfl⟩
    moves := by
      dsimp only
      rw [hword, Function.update_self, List.length_append, List.length_singleton]
      simp only [Main.owes]
      omega
    stored := by
      dsimp only
      rw [Function.update_self, List.length_append, List.length_singleton, hstored]
      rfl
    knows := fun l => (hi.knows l).store _ _ _ _
    settled := fun h0 => by cases h0
    kernel := fun _ => by dsimp only; rw [hword]; exact hkernel
    pushing := fun j hj => by cases hj
    worker := hi.worker.other rfl rfl rfl rfl (History.prefix_append w.sync _) }

/-- `main` bumps the epoch. From here on the last write of the word knows of everything that
was sent. -/
theorem Inv.main_fetchAdd (hi : Inv C total command w) {i : Option Nat}
    (hmain : w.main = .fetchAdd i) (h : stepMain total command t w = some w') :
    Inv C total command w' := by
  have hatt := hi.attempts
  have hatt_le := hi.attempts_le
  have hcmd := hi.commands
  have hmoves := hi.moves
  have hstored := hi.stored
  rw [hmain] at hatt hatt_le hcmd hmoves hstored
  simp only [Main.owes] at hmoves
  simp only [stepMain, hmain] at h
  obtain ⟨⟨sync, view, _⟩, hp, rfl⟩ := Option.map_eq_some_iff.mp h
  obtain ⟨last, hlast, rfl, rfl, -⟩ := WeakMemory.perform_rmw hp
  have hshut (m : Message Sync (SyncVal parts .word)) :
      Function.update w.sync .word (w.sync .word ++ [m]) .shutdown = w.sync .shutdown :=
    Function.update_of_ne (by decide) _ _
  have hpos : 0 < (w.sync .word).length := by
    rw [List.length_pos_iff]
    rintro hnil
    simp [hnil] at hlast
  have hval : last.value.1 = .ofNat ((w.sync .word).length - 1) :=
    hi.numbered .word _ _ (List.getLast?_eq_getElem? ▸ hlast)
  exact { hi with
    attempts := by cases i <;> exact hatt
    attempts_le := by cases i <;> exact hatt_le
    commands := by cases i <;> exact hcmd
    numbered := by
      refine WeakMemory.History.forall_append hi.numbered ?_
      show last.value.1 + 1 = _
      rw [hval, ← UInt32.ofNat_one, ← UInt32.ofNat_add, Nat.sub_add_cancel hpos]
    moves := by
      dsimp only
      rw [hshut, Function.update_self, List.length_append, List.length_singleton]
      simp only [Main.owes]
      omega
    stored := by
      dsimp only
      rw [hshut, hstored]
      cases i <;> rfl
    knows := fun l => (hi.knows l).store _ _ _ _
    settled := fun _ m hm => by
      dsimp only at hm ⊢
      rw [Function.update_self, List.getLast?_append] at hm
      obtain rfl := Option.some.inj hm
      rw [hshut]
      -- it carries what `main` has done, in the queue and to the flag
      have htail : w.sent ≤ w.queue.producerView.cur (.inl .tail) := by
        have := hi.queue.knowsTail
        unfold UpToDate at this
        rw [hi.queue.tail_length] at this
        rw [hi.sent]
        omega
      have hflag : w.mainView.cur .shutdown ≤
          w.mainView.released .releasing .word (w.sync .word).length .shutdown :=
        ThreadView.cur_le_released rfl Sync.shutdown
      refine ⟨htail.trans le_sup_right, ?_⟩
      exact (hi.knows .shutdown).trans (Nat.succ_le_succ (hflag.trans le_sup_left))
    kernel := fun hne => absurd rfl (hne i)
    pushing := fun j hj => by cases hj
    worker := hi.worker.other rfl rfl rfl rfl (History.prefix_append w.sync _) }

/-- `main` wakes the worker. A worker that was blocked goes back to the start of its loop. -/
theorem Inv.main_wake (hi : Inv C total command w) {i : Option Nat} (hmain : w.main = .wake i)
    (h : stepMain total command t w = some w') : Inv C total command w' := by
  have hatt := hi.attempts
  have hatt_le := hi.attempts_le
  have hcmd := hi.commands
  have hmoves := hi.moves
  have hstored := hi.stored
  have hset := hi.settled (by rw [hmain]; rfl)
  rw [hmain] at hatt hatt_le hcmd hmoves hstored
  simp only [stepMain, hmain] at h
  obtain rfl := Option.some.inj h
  exact { hi with
    attempts := by cases i <;> exact hatt
    attempts_le := by cases i <;> exact hatt_le
    commands := by cases i <;> exact hcmd
    moves := by cases i <;> exact hmoves
    stored := by cases i <;> exact hstored
    settled := fun _ => hset
    kernel := fun _ => (hi.knows .word).trans (Nat.succ_le_succ (le_max_right _ _))
    pushing := fun j hj => by cases i <;> cases hj
    worker := by
      have hworker := hi.worker
      cases hpc : w.worker with
      | blocked stamp => trivial
      | _ => rw [hpc] at hworker; exact hworker }

/-- **`main` keeps the invariant.** -/
theorem Inv.main_step (hi : Inv C total command w) (htotal : total + 1 < 2 ^ 32)
    (h : stepMain total command t w = some w') : Inv C total command w' := by
  cases hmain : w.main with
  | next i => exact hi.main_next hmain htotal h
  | pushing i => exact hi.main_pushing hmain htotal h
  | storeShutdown => exact hi.main_storeShutdown hmain h
  | fetchAdd i => exact hi.main_fetchAdd hmain h
  | wake i => exact hi.main_wake hmain h
  | join => simp [stepMain, hmain] at h

/-! ### The steps of the worker

Each load adds to what the worker knows. The two that matter are `Size`, from which an empty
queue follows up to what the thread has heard of, and the flag; behind both of them nothing
that the epoch carries is left to do. -/

/-- The worker has moved, and `main` need not know. The counts and `main`'s own view are as
before. -/
theorem Inv.worker_moved (hi : Inv C total command w) {queue : WeakQueue.World α parts}
    (view : ThreadView Sync) (pc : Worker) (cmd : Elem α parts) (hqueue : WeakQueue.Inv C queue)
    (hacc : queue.accepted = w.queue.accepted) (hprod : queue.producer = w.queue.producer)
    (hpc : WorkerInv { w with queue := queue, workerView := view, worker := pc, cmd := cmd } pc) :
    Inv C total command
      { w with queue := queue, workerView := view, worker := pc, cmd := cmd } :=
  { hi with
    queue := hqueue
    sent := hi.sent.trans (by rw [hacc])
    commands := by rw [hacc]; exact hi.commands
    pushing := fun i hmain => by rw [hprod]; exact hi.pushing i hmain
    worker := hpc }

/-- What a load of an atomic beside the queue does. -/
theorem loadSync_eq_some {ν : Type} {l : Sync} {k : SyncVal parts l → ν × QueueView parts} {x : ν}
    (h : loadSync l k t w = some (x, w')) :
    ∃ m, (w.sync l)[t]? = some m ∧ w.workerView.cur l ≤ t ∧ x = (k m.value).1 ∧
      w' = { w with
        workerView := w.workerView.see .acquiring l t m.view
        queue := w.queue.hear (k m.value).2 } := by
  obtain ⟨⟨sync, view, y, seen⟩, hp, heq⟩ := Option.map_eq_some_iff.mp h
  obtain ⟨m, hm, hle, -, rfl, hval⟩ := WeakMemory.perform_load hp
  obtain ⟨rfl, rfl⟩ := Prod.mk.inj heq
  exact ⟨m, hm, hle, by rw [← hval], by rw [← hval]⟩

/-- The worker calls `TryPop`. -/
theorem Inv.callPop (hi : Inv C total command w) (htotal : total + 1 < 2 ^ 32)
    {queue : WeakQueue.World α parts} {view : ThreadView Sync} {cmd : Elem α parts}
    (hqueue : WeakQueue.Inv C queue) (hacc : queue.accepted = w.queue.accepted)
    (hprod : queue.producer = w.queue.producer)
    (h : callPop { w with queue := queue, workerView := view, cmd := cmd } = some w') :
    Inv C total command w' := by
  obtain ⟨queue', hq, rfl⟩ := Option.map_eq_some_iff.mp h
  have hlen := hi.accepted_lt htotal
  obtain ⟨hacc', hprod'⟩ : queue'.accepted = queue.accepted ∧ queue'.producer = queue.producer := by
    simp only [WeakQueue.World.step] at hq
    split_ifs at hq
    obtain rfl := Option.some.inj hq
    exact ⟨rfl, rfl⟩
  exact hi.worker_moved _ _ _ (hqueue.step hq (by rw [hacc', hacc]; omega)) (hacc'.trans hacc)
    (hprod'.trans hprod) trivial

/-- The worker calls `Size`. The epoch it has loaded may know of no more than its thread. -/
theorem Inv.callSize (hi : Inv C total command w) (htotal : total + 1 < 2 ^ 32)
    {queue : WeakQueue.World α parts} {view : ThreadView Sync} {gen : Option (UInt32 × Nat)}
    (hqueue : WeakQueue.Inv C queue) (hacc : queue.accepted = w.queue.accepted)
    (hprod : queue.producer = w.queue.producer)
    (hgen : ∀ g stamp, gen = some (g, stamp) →
      Epoch w.sync g stamp (queue.consumerView.cur (.inl .tail)) (view.cur .shutdown))
    (h : callSize gen { w with queue := queue, workerView := view } = some w') :
    Inv C total command w' := by
  obtain ⟨queue', hq, rfl⟩ := Option.map_eq_some_iff.mp h
  have hlen := hi.accepted_lt htotal
  obtain ⟨hacc', hprod', hcons⟩ : queue'.accepted = queue.accepted ∧
      queue'.producer = queue.producer ∧
      queue'.consumer = .sizing .loadHead ⟨queue.consumerView.cur (.inl .tail), 0⟩ := by
    simp only [WeakQueue.World.step] at hq
    split_ifs at hq
    obtain rfl := Option.some.inj hq
    exact ⟨rfl, rfl, rfl⟩
  exact hi.worker_moved _ _ _ (hqueue.step hq (by rw [hacc', hacc]; omega)) (hacc'.trans hacc)
    (hprod'.trans hprod) ⟨_, _, hcons, hgen⟩

/-- The worker inside `TryPop`. -/
theorem Inv.worker_popping (hi : Inv C total command w) {late : Bool} (hw : w.worker = .popping)
    (htotal : total + 1 < 2 ^ 32) (h : stepWorker t late w = some w') :
    Inv C total command w' := by
  simp only [stepWorker, hw] at h
  obtain ⟨queue, hq, h⟩ := Option.bind_eq_some_iff.mp h
  have hlen := hi.accepted_lt htotal
  obtain ⟨hacc, hprod, -⟩ := WeakQueue.World.step_consume hq
  have hqueue := hi.queue.step hq (by rw [hacc]; omega)
  split at h
  · exact hi.callPop htotal hqueue hacc hprod h
  · obtain rfl := Option.some.inj h
    exact hi.worker_moved _ _ _ hqueue hacc hprod trivial
  · obtain rfl := Option.some.inj h
    exact hi.worker_moved _ .popping _ hqueue hacc hprod trivial

/-- The worker at the flag in its loop. -/
theorem Inv.worker_checkShutdown (hi : Inv C total command w) {late : Bool}
    (hw : w.worker = .checkShutdown) (h : stepWorker t late w = some w') :
    Inv C total command w' := by
  simp only [stepWorker, hw] at h
  obtain ⟨⟨stop, w₁⟩, hload, rfl⟩ := Option.map_eq_some_iff.mp h
  obtain ⟨m, hm, -, hstop, rfl⟩ := loadSync_eq_some hload
  refine hi.worker_moved _ _ _ (hi.queue.hear _) rfl rfl ?_
  have hnum : m.value.1 = true ↔ 0 < t := hi.numbered .shutdown _ _ hm
  have hlt := (List.getElem?_eq_some_iff.mp hm).1
  cases stop with
  | false => trivial
  | true =>
      show 1 < (w.sync .shutdown).length
      have := hnum.mp hstop.symm
      omega

/-- The worker loads the epoch, and all that comes with it. -/
theorem Inv.worker_loadWord (hi : Inv C total command w) {late : Bool} (hw : w.worker = .loadWord)
    (htotal : total + 1 < 2 ^ 32) (h : stepWorker t late w = some w') :
    Inv C total command w' := by
  simp only [stepWorker, hw] at h
  obtain ⟨⟨gen, w₁⟩, hload, h⟩ := Option.bind_eq_some_iff.mp h
  obtain ⟨m, hm, -, rfl, rfl⟩ := loadSync_eq_some hload
  refine hi.callSize htotal (hi.queue.hear m.value.2) rfl rfl ?_ h
  intro g stamp heq
  obtain ⟨rfl, rfl⟩ := Prod.mk.inj (Option.some.inj heq)
  have hflag : m.view ≤ (w.workerView.see .acquiring .word t m.view).cur :=
    ThreadView.view_le_see rfl
  exact ⟨m, hm, rfl, le_sup_right, hflag .shutdown⟩

/-- The worker inside `Size` of its predicate. **A queue that is found empty is one in which
there is nothing that the epoch knows of.** -/
theorem Inv.worker_sizing (hi : Inv C total command w) {late : Bool}
    {gen : Option (UInt32 × Nat)} (hw : w.worker = .sizing gen)
    (htotal : total + 1 < 2 ^ 32) (h : stepWorker t late w = some w') :
    Inv C total command w' := by
  have hworker := hi.worker
  rw [hw] at hworker
  obtain ⟨pc, log, hc, hepoch⟩ := hworker
  simp only [stepWorker, hw] at h
  obtain ⟨queue, hq, h⟩ := Option.bind_eq_some_iff.mp h
  have hlen := hi.accepted_lt htotal
  obtain ⟨hacc, hprod, -⟩ := WeakQueue.World.step_consume hq
  obtain ⟨hpop, log', hfloor, hnext⟩ := WeakQueue.World.step_sizing hc hq
  have hqueue := hi.queue.step hq (by rw [hacc]; omega)
  obtain ⟨pc', hc'⟩ | ⟨n, hc'⟩ := hnext
  · simp only [hc'] at h
    obtain rfl := Option.some.inj h
    refine hi.worker_moved _ (.sizing gen) _ hqueue hacc hprod ⟨pc', log', hc', ?_⟩
    rw [hfloor]
    exact hepoch
  · simp only [hc'] at h
    split_ifs at h with hn
    · exact hi.callPop htotal hqueue hacc hprod h
    · obtain rfl := Option.some.inj h
      have hcons := hqueue.consumer
      rw [hc'] at hcons
      obtain ⟨hle, htail, -⟩ := hcons
      refine hi.worker_moved _ (.loadShutdown gen) _ hqueue hacc hprod ?_
      intro g stamp hgen
      refine (hepoch g stamp hgen).mono (List.prefix_refl _) ?_ le_rfl
      rw [← hfloor]
      simp only [ne_eq, not_not] at hn
      simp only [hn, UInt64.toNat_zero, Nat.add_zero] at htail
      exact hle.trans htail.le

/-- The worker at the flag in its predicate. A flag that is not set is the first one, and
then the epoch knows of no other. -/
theorem Inv.worker_loadShutdown (hi : Inv C total command w) {late : Bool}
    {gen : Option (UInt32 × Nat)} (hw : w.worker = .loadShutdown gen)
    (htotal : total + 1 < 2 ^ 32) (h : stepWorker t late w = some w') :
    Inv C total command w' := by
  have hworker := hi.worker
  rw [hw] at hworker
  simp only [stepWorker, hw] at h
  obtain ⟨⟨stop, w₁⟩, hload, h⟩ := Option.bind_eq_some_iff.mp h
  obtain ⟨m, hm, hle, hstop, rfl⟩ := loadSync_eq_some hload
  have hnum : m.value.1 = true ↔ 0 < t := hi.numbered .shutdown _ _ hm
  dsimp only at h
  split at h
  · obtain rfl := Option.some.inj h
    refine hi.worker_moved _ _ _ (hi.queue.hear _) rfl rfl ?_
    have hzero : t = 0 := by
      by_contra hne
      have htrue := hnum.mpr (by omega)
      simp only [id] at hstop
      rw [htrue] at hstop
      cases hstop
    exact (hworker _ _ rfl).mono (List.prefix_refl _) le_rfl (hzero ▸ hle)
  · exact hi.callPop htotal (hi.queue.hear _) rfl rfl h

/-- The kernel compares the epochs: **as long as they do not wrap, it finds the one that was
loaded or another one.** -/
theorem Inv.worker_futexWait (hi : Inv C total command w) {late : Bool} {gen : UInt32}
    {stamp : Nat} (hw : w.worker = .futexWait gen stamp) (htotal : total + 1 < 2 ^ 32)
    (h : stepWorker t late w = some w') : Inv C total command w' := by
  have hworker := hi.worker
  rw [hw] at hworker
  simp only [stepWorker, hw] at h
  split_ifs at h with hle
  obtain ⟨m, hm, rfl⟩ := Option.map_eq_some_iff.mp h
  refine hi.worker_moved _ _ _ hi.queue rfl rfl ?_
  split_ifs with heq
  · obtain ⟨m₀, hm₀, hval, hrest⟩ := id hworker
    have hnum : m.value.1 = .ofNat t := hi.numbered .word _ _ hm
    have hnum₀ : m₀.value.1 = .ofNat stamp := hi.numbered .word _ _ hm₀
    have hlt := (List.getElem?_eq_some_iff.mp hm).1
    have hlt₀ := (List.getElem?_eq_some_iff.mp hm₀).1
    have hwords : (w.sync .word).length ≤ 2 ^ 32 := by
      have hmoves := hi.moves
      have hstored := hi.stored
      have hflags : w.main.stored ≤ 1 := by
        unfold Main.stored
        split <;> omega
      have := hi.attempts
      have := hi.attempts_le
      omega
    have hstamp : stamp = t := by
      have hof : UInt32.ofNat stamp = UInt32.ofNat t := by rw [← hnum, ← hnum₀, heq, hval]
      have := congrArg UInt32.toNat hof
      rwa [UInt32.toNat_ofNat_of_lt' (hlt₀.trans_le hwords),
        UInt32.toNat_ofNat_of_lt' (hlt.trans_le hwords)] at this
    exact ⟨hstamp ▸ (le_max_left _ _).trans hle, gen, hworker⟩
  · trivial

/-- **The worker keeps the invariant.** -/
theorem Inv.worker_step (hi : Inv C total command w) (htotal : total + 1 < 2 ^ 32) {late : Bool}
    (h : stepWorker t late w = some w') : Inv C total command w' := by
  cases hw : w.worker with
  | popping => exact hi.worker_popping hw htotal h
  | checkShutdown => exact hi.worker_checkShutdown hw h
  | loadWord => exact hi.worker_loadWord hw htotal h
  | sizing gen => exact hi.worker_sizing hw htotal h
  | loadShutdown gen => exact hi.worker_loadShutdown hw htotal h
  | deadline gen stamp =>
      have hworker := hi.worker
      rw [hw] at hworker
      simp only [stepWorker, hw] at h
      split_ifs at h
      · exact hi.callSize htotal hi.queue rfl rfl (fun _ _ hnone => by cases hnone) h
      · obtain rfl := Option.some.inj h
        exact hi.worker_moved _ _ _ hi.queue rfl rfl hworker
  | futexWait gen stamp => exact hi.worker_futexWait hw htotal h
  | blocked stamp => simp [stepWorker, hw] at h
  | stopped => simp [stepWorker, hw] at h

/-! ### Whole runs

By the two step lemmas. The commands and the flag move the 32-bit epoch `total + 1` times at
most, and the theorems ask that this does not wrap. -/

theorem Inv.init (depth : UInt32) (junk : Nat → Elem α parts) (cmd : Elem α parts) :
    Inv (effectiveDepth depth).toUInt64 total command (World.init depth junk cmd) where
  queue := (WeakQueue.Inv.init depth junk).listens _ (.refl _) rfl ⟨trivial, le_rfl⟩
  sent := rfl
  attempts := rfl
  attempts_le := Nat.zero_le _
  commands := List.Sublist.slnil
  numbered := by
    intro l k m hm
    obtain rfl : k = 0 := by
      have hlt := (List.getElem?_eq_some_iff.mp hm).1
      cases l <;> simpa [World.init, initialSync] using hlt
    cases l with
    | word => obtain rfl := Option.some.inj hm; rfl
    | shutdown => obtain rfl := Option.some.inj hm; simp [Numbered]
  moves := rfl
  stored := rfl
  knows := fun l => by cases l <;> exact le_rfl
  settled := fun _ m hm => by
    obtain rfl := Option.some.inj hm
    exact ⟨Nat.zero_le _, le_rfl⟩
  kernel := fun _ => le_rfl
  pushing := fun i hmain => by cases hmain
  worker := trivial

/-- **A step of the system keeps the invariant.** -/
theorem Inv.step (hi : Inv C total command w) (htotal : total + 1 < 2 ^ 32) {l : Label}
    (h : w.step total command l = some w') : Inv C total command w' := by
  cases l with
  | main t => exact hi.main_step htotal h
  | worker t late => exact hi.worker_step htotal h
  | unblock =>
      simp only [World.step] at h
      split at h
      · obtain rfl := Option.some.inj h
        exact hi.worker_moved _ _ _ hi.queue rfl rfl trivial
      · cases h

theorem World.run_inv {depth : UInt32} {junk : Nat → Elem α parts} {cmd : Elem α parts}
    {ls : List Label} (h : World.run depth junk cmd total command ls = some w)
    (htotal : total + 1 < 2 ^ 32) : Inv (effectiveDepth depth).toUInt64 total command w :=
  Run.exec_invariant (fun hi hstep => hi.step htotal hstep) (.init depth junk cmd) h

/-! ### The results -/

/-- **A worker that sleeps although there is work, or although it should stop, is about to
be woken.** This holds at every moment, so a worker that nobody is about to wake sleeps only
if it has handled everything and has not been told to stop. -/
theorem never_sleeps_on_work {depth : UInt32} {junk : Nat → Elem α parts} {cmd : Elem α parts}
    {ls : List Label} (hrun : World.run depth junk cmd total command ls = some w)
    (htotal : total + 1 < 2 ^ 32) {stamp : Nat} (hw : w.worker = .blocked stamp)
    (hwork : w.queue.popped.length < w.queue.accepted.length ∨ w.main.stored = 1) :
    w.main.notifying = true := by
  have hi := World.run_inv hrun htotal
  refine hi.awake hw (hwork.imp_right ?_)
  intro hone
  have := hi.stored
  omega

/-- **Every command is accounted for**: it is sent or rejected, the commands that are handled
are those that were sent, in order and without a race, and the worker stops only when told
to. That it stops does not mean that all are handled. -/
theorem commands_accounted {depth : UInt32} {junk : Nat → Elem α parts} {cmd : Elem α parts}
    {ls : List Label} (hrun : World.run depth junk cmd total command ls = some w)
    (htotal : total + 1 < 2 ^ 32) :
    w.queue.raced = false ∧ w.queue.popped <+: w.queue.accepted ∧
      w.queue.accepted.Sublist ((List.range (w.main.attempts total)).map command) ∧
      w.sent = w.queue.accepted.length ∧ w.sent + w.rejected = w.main.attempts total ∧
      (w.worker = .stopped → w.main.stored = 1) := by
  have hi := World.run_inv hrun htotal
  refine ⟨hi.queue.unraced, hi.queue.fifo, hi.commands, hi.sent, hi.attempts, ?_⟩
  intro hw
  have hworker := hi.worker
  rw [hw] at hworker
  have hflags : 1 < (w.sync .shutdown).length := hworker
  have hstored := hi.stored
  have hle : w.main.stored ≤ 1 := by
    unfold Main.stored
    split <;> omega
  omega

/-- The worker finds nothing and goes to sleep; then a command is pushed. -/
def sleepyWorker : List Label :=
  List.replicate 10 (.worker 0 false) ++ List.replicate 7 (.main 0)

theorem never_sleeps_on_work_sleepyWorker : ∃ w : World Nat 2,
    World.run 64 (fun _ => ![0, 0]) ![0, 0] 1 (fun i => ![1, i]) sleepyWorker = some w ∧
    w.worker = .blocked 0 ∧ w.queue.popped = [] ∧ w.queue.accepted = [![1, 0]] ∧
    w.main.notifying = true := by
  have hex : ∃ w : World Nat 2, World.run 64 (fun _ => ![0, 0]) ![0, 0] 1 (fun i => ![1, i])
      sleepyWorker = some w ∧ w.worker = .blocked 0 ∧ w.queue.popped = [] ∧
      w.queue.accepted = [![1, 0]] := Run.exists_exec (by decide +kernel)
  obtain ⟨w, hrun, hw, hpop, hacc⟩ := hex
  exact ⟨w, hrun, hw, hpop, hacc,
    never_sleeps_on_work hrun (by decide) hw (.inl (by rw [hpop, hacc]; decide))⟩

/-- The worker finds nothing; then a command is pushed and the worker is told to stop, which
it does. -/
def leftBehind : List Label :=
  List.replicate 3 (.worker 0 false) ++ List.replicate 13 (.main 0) ++ [.worker 1 false]

theorem commands_accounted_leftBehind : ∃ w : World Nat 2,
    World.run 64 (fun _ => ![0, 0]) ![0, 0] 1 (fun i => ![1, i]) leftBehind = some w ∧
    w.worker = .stopped ∧ w.main = .join ∧ w.queue.popped = [] ∧ w.queue.accepted = [![1, 0]] ∧
    w.sent + w.rejected = 1 := by
  have hex : ∃ w : World Nat 2, World.run 64 (fun _ => ![0, 0]) ![0, 0] 1 (fun i => ![1, i])
      leftBehind = some w ∧ w.worker = .stopped ∧ w.main = .join ∧ w.queue.popped = [] ∧
      w.queue.accepted = [![1, 0]] := Run.exists_exec (by decide +kernel)
  obtain ⟨w, hrun, hw, hmain, hpop, hacc⟩ := hex
  obtain ⟨-, -, -, -, hcount, -⟩ := commands_accounted hrun (by decide)
  rw [hmain] at hcount
  exact ⟨w, hrun, hw, hmain, hpop, hacc, hcount⟩

end XmBase.Concurrency.WorkerInbox
