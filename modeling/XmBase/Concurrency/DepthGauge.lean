import XmBase.Concurrency.SpscFifo
/-!
# XmBase.Concurrency.DepthGauge

`Size()` from every thread of the system: the producer's, the consumer's and others that
only look. It loads the head before the tail, and pops that complete in between are still
counted: **the value is the number of elements at the tail load plus the pops since the
head load** (`size_value`). On the consumer's thread there are none, and on the producer's
thread nothing is pushed in between, so there the value is within the capacity. Another
thread can see more than that.
-/

namespace XmBase.Concurrency.SpscQueue

open Atomic (Access Code)

variable {α : Type} {parts : Nat} {κ : Type}

/-- The thread a `Size()` call is made on. -/
inductive Caller (κ : Type)
  | producer
  | consumer
  /-- A thread that makes no other calls on the queue. -/
  | monitor (k : κ)
  deriving DecidableEq

deriving instance DecidableEq for Monitor

/-- The call is in progress. -/
def Monitor.inCall : Monitor → Bool
  | .sizing _ => true
  | _ => false

/-- A thread makes one call at a time. -/
def oneCall (w : World α parts (Caller κ)) : Label α parts (Caller κ) → Bool
  | .callPush _ | .callFull _ _ | .produce => !(w.monitors .producer).inCall
  | .callPop _ | .consume => !(w.monitors .consumer).inCall
  | .callSize .producer => !w.producer.inCall
  | .callSize .consumer => !w.consumer.inCall
  | .callSize (.monitor _) | .monitor _ => true

/-- What a `Size()` call has seen: history variables, which no step reads. -/
structure GaugeLog where
  /-- Pops completed at the head load. -/
  start : Nat
  /-- Pops completed at the tail load. -/
  stop : Nat
  /-- Elements in the queue at the tail load. -/
  queued : Nat
  deriving DecidableEq

/-- Log the access a `Size()` is about to make. -/
def GaugeLog.note (m : Mem α parts) (h : History α parts) (log : GaugeLog) : SizePc → GaugeLog
  | .loadHead => { log with start := h.popped.length }
  | .loadTail _ => { log with stop := h.popped.length, queued := SpscQueue.queued m }

/-- The system with the logs of its `Size()` calls. The logs are kept beside the world, so
the queue and its history are those of the other modules. -/
structure Gauged (α : Type) (parts : Nat) (κ : Type) where
  world : World α parts (Caller κ)
  logs : Caller κ → GaugeLog

variable [DecidableEq κ]

def Gauged.logsAfter (g : Gauged α parts κ) : Label α parts (Caller κ) → Caller κ → GaugeLog
  | .monitor c =>
      match g.world.monitors c with
      | .sizing pc => Function.update g.logs c ((g.logs c).note g.world.mem g.world.hist pc)
      | _ => g.logs
  | _ => g.logs

/-- One step of the system. -/
def Gauged.step (g : Gauged α parts κ) (l : Label α parts (Caller κ)) : Option (Gauged α parts κ) :=
  if oneCall g.world l then (g.world.step l).map fun w => ⟨w, g.logsAfter l⟩ else none

/-- The system right after construction. -/
def Gauged.init (depth : UInt32) (junk : Nat → Elem α parts) : Gauged α parts κ where
  world := World.init depth junk _
  logs := fun _ => ⟨0, 0, 0⟩

/-- Run a schedule on a queue of the given depth. -/
def Gauged.run (depth : UInt32) (junk : Nat → Elem α parts) (ls : List (Label α parts (Caller κ))) :
    Option (Gauged α parts κ) :=
  Run.exec Gauged.step (Gauged.init depth junk) ls

/-! ### What a step does to the calls in progress

A `Size()` in progress depends on the two counts and on nothing else, so the moves of the
queue are sorted by which count they can raise. That the caller's own thread does not push
or pop meanwhile is where the three kinds of callers differ. -/

/-- Every step, on the `Size()` calls and what they depend on. -/
inductive GaugeMove (g g' : Gauged α parts κ) : Prop
  /-- The producer moves, and so is not inside a `Size()` of its own. -/
  | produce (hmonitors : g'.world.monitors = g.world.monitors) (hlogs : g'.logs = g.logs)
      (hpopped : g'.world.hist.popped = g.world.hist.popped)
      (hidle : (g.world.monitors .producer).inCall = false)
  /-- The consumer moves. -/
  | consume (hmonitors : g'.world.monitors = g.world.monitors) (hlogs : g'.logs = g.logs)
      (haccepted : g'.world.hist.accepted = g.world.hist.accepted)
      (hpopped : g.world.hist.popped.length ≤ g'.world.hist.popped.length)
      (hidle : (g.world.monitors .consumer).inCall = false)
  | call (c : Caller κ) (hhist : g'.world.hist = g.world.hist) (hlogs : g'.logs = g.logs)
      (hmonitors : g'.world.monitors = Function.update g.world.monitors c (.sizing .loadHead))
  | load (c : Caller κ) (pc : SizePc) (hpc : g.world.monitors c = .sizing pc)
      (hhist : g'.world.hist = g.world.hist)
      (hlogs : g'.logs = Function.update g.logs c ((g.logs c).note g.world.mem g.world.hist pc))
      (hmonitors : g'.world.monitors = Function.update g.world.monitors c
        (match ((size pc).exec g.world.mem).2 with
          | .inl pc' => .sizing pc'
          | .inr n => .sized n))

omit [DecidableEq κ] in
theorem popped_afterPush (value : Elem α parts) (h : History α parts) (next : PushPc ⊕ Bool) :
    (h.afterPush value next).popped = h.popped := by
  cases next with
  | inl pc => rfl
  | inr ok => cases ok <;> rfl

omit [DecidableEq κ] in
theorem afterPop_frame (h : History α parts) (next : PopPc α parts ⊕ (Bool × Elem α parts)) :
    (h.afterPop next).accepted = h.accepted ∧ h.popped.length ≤ (h.afterPop next).popped.length := by
  cases next with
  | inl pc => exact ⟨rfl, Nat.le_refl _⟩
  | inr answer =>
      obtain ⟨ok, out⟩ := answer
      cases ok with
      | false => exact ⟨rfl, Nat.le_refl _⟩
      | true => exact ⟨rfl, by rw [History.afterPop, List.length_append]; exact Nat.le_add_right _ _⟩

theorem Gauged.step_cases {g g' : Gauged α parts κ} {l : Label α parts (Caller κ)}
    (h : g.step l = some g') : GaugeMove g g' ∧ g.world.step l = some g'.world := by
  rw [Gauged.step] at h
  split_ifs at h with hone
  obtain ⟨w, hw, rfl⟩ := Option.map_eq_some_iff.mp h
  refine ⟨?_, hw⟩
  obtain ⟨⟨m, p, c, ms, hist⟩, logs⟩ := g
  cases l with
  | callPush v =>
      simp only [World.step] at hw
      split_ifs at hw
      obtain rfl := Option.some.inj hw
      exact .produce rfl rfl rfl (by simpa [oneCall] using hone)
  | callFull o rest =>
      simp only [World.step] at hw
      split_ifs at hw
      obtain rfl := Option.some.inj hw
      exact .produce rfl rfl rfl (by simpa [oneCall] using hone)
  | produce =>
      have hidle : (ms .producer).inCall = false := by simpa [oneCall] using hone
      cases p with
      | pushing v pc log =>
          obtain rfl := Option.some.inj hw
          exact .produce rfl rfl (popped_afterPush v hist _) hidle
      | checking pc =>
          obtain rfl := Option.some.inj hw
          refine .produce rfl rfl ?_ hidle
          dsimp only
          split <;> rfl
      | _ => simp [World.step] at hw
  | callPop out =>
      simp only [World.step] at hw
      split_ifs at hw
      obtain rfl := Option.some.inj hw
      exact .consume rfl rfl rfl (Nat.le_refl _) (by simpa [oneCall] using hone)
  | consume =>
      cases c with
      | popping pc occ =>
          obtain rfl := Option.some.inj hw
          obtain ⟨haccepted, hpopped⟩ := afterPop_frame hist ((tryPop pc).exec m).2
          exact .consume rfl rfl haccepted hpopped (by simpa [oneCall] using hone)
      | _ => simp [World.step] at hw
  | callSize r =>
      simp only [World.step] at hw
      split at hw
      · cases hw
      · obtain rfl := Option.some.inj hw
        exact .call r rfl rfl rfl
  | monitor r =>
      simp only [World.step] at hw
      split at hw
      · next pc hpc =>
          obtain rfl := Option.some.inj hw
          refine .load r pc hpc rfl ?_ rfl
          simp only [Gauged.logsAfter, hpc]
      · cases hw

/-! ### The invariant

Between its two loads a call holds a head that was right when it was loaded. Since then the
head can only have moved on; on the consumer's thread it cannot, and on the producer's the
tail cannot. -/

/-- What a `Size()` call on thread `c` has established. -/
def GaugePhase (cap : Nat) (h : History α parts) (c : Caller κ) (log : GaugeLog) : Monitor → Prop
  | .idle | .sizing .loadHead => True
  | .sizing (.loadTail head) =>
      head.toNat = log.start ∧ log.start ≤ h.popped.length ∧
        (c = .producer → h.accepted.length ≤ log.start + cap) ∧
        (c = .consumer → log.start = h.popped.length)
  | .sized n =>
      n.toNat = log.queued + (log.stop - log.start) ∧ log.queued ≤ cap ∧
        (c = .producer ∨ c = .consumer → n.toNat ≤ cap)

section

variable {cap : Nat} {h h' : History α parts} {c : Caller κ} {log : GaugeLog} {t : Monitor}

omit [DecidableEq κ] in
/-- A call sees the others push and pop, but not its own thread. -/
theorem GaugePhase.mono (hphase : GaugePhase cap h c log t)
    (hpopped : h.popped.length ≤ h'.popped.length)
    (hproducer : c = .producer → t.inCall = true → h'.accepted = h.accepted)
    (hconsumer : c = .consumer → t.inCall = true → h'.popped = h.popped) :
    GaugePhase cap h' c log t := by
  cases t with
  | idle => trivial
  | sized n => exact hphase
  | sizing pc =>
      cases pc with
      | loadHead => trivial
      | loadTail head =>
          obtain ⟨hhead, hstart, hprod, hcons⟩ := hphase
          refine ⟨hhead, hstart.trans hpopped, fun hc => ?_, fun hc => ?_⟩
          · rw [hproducer hc rfl]
            exact hprod hc
          · rw [hconsumer hc rfl]
            exact hcons hc

omit [DecidableEq κ] in
/-- The value of a `Size()` whose tail load finds the queue in order. -/
theorem GaugePhase.answer {m : Mem α parts} {capacity head : UInt64} (hcore : Core capacity m h)
    (hphase : GaugePhase capacity.toNat h c log (.sizing (.loadTail head))) :
    GaugePhase capacity.toNat h c (log.note m h (.loadTail head))
      (.sized (if m .tail ≥ head then m .tail - head else 0)) := by
  obtain ⟨hhead, hstart, hprod, hcons⟩ := hphase
  have hle := hcore.le
  have hroom := hcore.room
  have horder : head.toNat ≤ (m .tail).toNat := by
    rw [hhead, hcore.tail]
    exact hstart.trans hle
  have hvalue : (if m .tail ≥ head then m .tail - head else 0).toNat =
      h.accepted.length - log.start := by
    rw [if_pos (UInt64.le_iff_toNat_le.mpr horder), Word.toNat_sub_of_le horder, hcore.tail, hhead]
  simp only [GaugePhase, GaugeLog.note, hvalue, hcore.queued_eq]
  refine ⟨by omega, by omega, fun hc => ?_⟩
  rcases hc with hc | hc
  · exact Nat.sub_le_iff_le_add'.mpr (hprod hc)
  · rw [hcons hc]
    omega

end

/-- The invariant of the gauge: every call is in order. -/
def Gauged.Inv (cap : UInt64) (g : Gauged α parts κ) : Prop :=
  SpscQueue.Inv cap g.world.mem g.world.hist g.world.producer g.world.consumer ∧
    ∀ c, GaugePhase cap.toNat g.world.hist c (g.logs c) (g.world.monitors c)

theorem Gauged.phase_step {cap : UInt64} {g g' : Gauged α parts κ} (hmove : GaugeMove g g')
    (hi : g.Inv cap) (c : Caller κ) :
    GaugePhase cap.toNat g'.world.hist c (g'.logs c) (g'.world.monitors c) := by
  obtain ⟨hqueue, hphases⟩ := hi
  cases hmove with
  | produce hmonitors hlogs hpopped hidle =>
      rw [hmonitors, hlogs]
      refine (hphases c).mono (by rw [hpopped]) (fun hc hcall => ?_) fun _ _ => hpopped
      rw [hc, hidle] at hcall
      cases hcall
  | consume hmonitors hlogs haccepted hpopped hidle =>
      rw [hmonitors, hlogs]
      refine (hphases c).mono hpopped (fun _ _ => haccepted) fun hc hcall => ?_
      rw [hc, hidle] at hcall
      cases hcall
  | call c' hhist hlogs hmonitors =>
      rw [hhist, hlogs, hmonitors]
      by_cases hc : c = c'
      · rw [hc, Function.update_self]
        trivial
      · rw [Function.update_of_ne hc]
        exact hphases c
  | load c' pc hpc hhist hlogs hmonitors =>
      rw [hhist, hlogs, hmonitors]
      by_cases hc : c = c'
      · subst hc
        rw [Function.update_self, Function.update_self]
        have hphase := hphases c
        rw [hpc] at hphase
        cases pc with
        | loadHead =>
            exact ⟨hqueue.core.head, Nat.le_refl _, fun _ => hqueue.core.room, fun _ => rfl⟩
        | loadTail head => exact hphase.answer hqueue.core
      · rw [Function.update_of_ne hc, Function.update_of_ne hc]
        exact hphases c

theorem Gauged.step_inv {cap : UInt64} {g g' : Gauged α parts κ} {l : Label α parts (Caller κ)}
    (hi : g.world.hist.accepted.length < 2 ^ 64 → g.Inv cap) (h : g.step l = some g') :
    g'.world.hist.accepted.length < 2 ^ 64 → g'.Inv cap := by
  intro hlen
  obtain ⟨hmove, hstep⟩ := Gauged.step_cases h
  have hold : g.world.hist.accepted.length < 2 ^ 64 := by
    rcases World.step_cases hstep with ⟨hp, -⟩ | ⟨hc, -⟩ | ⟨-, hh, -, -⟩
    · exact hp.accepted_le.trans_lt hlen
    · rw [← hc.accepted_eq]
      exact hlen
    · rw [← hh]
      exact hlen
  exact ⟨World.step_inv (fun _ => (hi hold).1) hstep hlen, Gauged.phase_step hmove (hi hold)⟩

omit [DecidableEq κ] in
theorem Gauged.init_inv (depth : UInt32) (junk : Nat → Elem α parts) :
    (Gauged.init depth junk : Gauged α parts κ).Inv (effectiveDepth depth).toUInt64 :=
  ⟨World.init_inv depth junk, fun _ => trivial⟩

theorem Gauged.run_inv {depth : UInt32} {junk : Nat → Elem α parts} {g : Gauged α parts κ}
    {ls : List (Label α parts (Caller κ))} (h : Gauged.run depth junk ls = some g)
    (hlen : g.world.hist.accepted.length < 2 ^ 64) : g.Inv (effectiveDepth depth).toUInt64 :=
  Run.exec_invariant (I := fun g : Gauged α parts κ => g.world.hist.accepted.length < 2 ^ 64 →
      g.Inv (effectiveDepth depth).toUInt64)
    Gauged.step_inv (fun _ => Gauged.init_inv depth junk) h hlen

/-! ### What `Size()` returns

One theorem for all callers, with the value in terms of the log; the bound by the capacity
holds on the two threads of the queue. The run after it shows that it does not hold on a
third. -/

/-- **The value of `Size()`** is the number of elements at the tail load plus the pops
that completed since the head load; on the producer's and the consumer's own threads it
is within the capacity. -/
theorem size_value {depth : UInt32} {junk : Nat → Elem α parts} {g : Gauged α parts κ}
    {ls : List (Label α parts (Caller κ))} (hrun : Gauged.run depth junk ls = some g)
    (hlen : g.world.hist.accepted.length < 2 ^ 64) {c : Caller κ} {n : UInt64}
    (hn : g.world.monitors c = .sized n) :
    (c = .producer ∨ c = .consumer → n ≤ g.world.mem .capacity) ∧
      n.toNat = (g.logs c).queued + ((g.logs c).stop - (g.logs c).start) ∧
      (g.logs c).queued ≤ (g.world.mem .capacity).toNat := by
  obtain ⟨hqueue, hphases⟩ := Gauged.run_inv hrun hlen
  have hphase := hphases c
  rw [hn] at hphase
  obtain ⟨hvalue, hqueued, hown⟩ := hphase
  rw [hqueue.core.capacity]
  exact ⟨fun hc => UInt64.le_iff_toNat_le.mpr (hown hc), hvalue, hqueued⟩

/-- One value through a queue of depth one. -/
def passOne : List (Label Nat 1 (Caller Unit)) :=
  [[.callPush ![7]], List.replicate 5 .produce, [.callPop ![0]], List.replicate 5 .consume].flatten

/-- A third thread loads the head, two values pass through, and it loads the tail; then
the producer looks. -/
def lateTail : List (Label Nat 1 (Caller Unit)) :=
  [[.callSize (.monitor ()), .monitor (.monitor ())], passOne, passOne,
    [.monitor (.monitor ()), .callSize .producer, .monitor .producer, .monitor .producer]].flatten

theorem size_value_lateTail : ∃ g : Gauged Nat 1 Unit,
    Gauged.run 1 (fun _ => ![0]) lateTail = some g ∧
      g.world.monitors .producer = .sized 0 ∧ (0 : UInt64) ≤ g.world.mem .capacity ∧
      (g.logs .producer).queued ≤ (g.world.mem .capacity).toNat := by
  have hex : ∃ g : Gauged Nat 1 Unit, Gauged.run 1 (fun _ => ![0]) lateTail = some g ∧
      (g.world.monitors .producer = .sized 0 ∧ g.world.hist.accepted.length = 2) :=
    Run.exists_exec (by decide +kernel)
  obtain ⟨g, hrun, hsized, hlen⟩ := hex
  obtain ⟨hle, -, hqueued⟩ := size_value hrun (by rw [hlen]; decide) hsized
  exact ⟨g, hrun, hsized, hle (.inl rfl), hqueued⟩

/-- The third thread sees two elements in a queue that holds at most one. -/
theorem size_above_capacity : ∃ g : Gauged Nat 1 Unit,
    Gauged.run 1 (fun _ => ![0]) lateTail = some g ∧ g.world.hist.accepted.length < 2 ^ 64 ∧
      g.world.monitors (.monitor ()) = .sized 2 ∧ g.world.mem .capacity = 1 ∧
      ¬ (2 : UInt64) ≤ g.world.mem .capacity := by
  have hex : ∃ g : Gauged Nat 1 Unit, Gauged.run 1 (fun _ => ![0]) lateTail = some g ∧
      (g.world.hist.accepted.length < 2 ^ 64 ∧ g.world.monitors (.monitor ()) = .sized 2 ∧
        g.world.mem .capacity = 1) :=
    Run.exists_exec (by decide +kernel)
  obtain ⟨g, hrun, hlen, hsized, hcap⟩ := hex
  exact ⟨g, hrun, hlen, hsized, hcap, by rw [hcap]; decide⟩

end XmBase.Concurrency.SpscQueue
