import XmBase.Concurrency.SpscQueue
import XmBase.Lib.Word
import Mathlib.Data.Fin.VecNotation
import Mathlib.Data.Fintype.Basic
/-!
# XmBase.Concurrency.SpscFifo

**`SpscQueue` is a bounded first-in first-out queue**, for every depth, every
interleaving of the two sides' accesses and element copies, and fewer than
`2 ^ 64` accepted values.

Each side works with a stale copy of the other's index. The producer's copy of
the head is too small, so it sees less room than there is; the consumer's copy of
the tail is too small, so it sees fewer elements than there are. Both errors are
on the safe side, and the two cells at work are different: the consumer is in
cell `head % capacity`, the producer in cell `tail % capacity`, and
`head < tail < head + capacity` while both are.
-/

namespace XmBase.Concurrency.SpscQueue

open Atomic (Access Code)

variable {α : Type} {parts : Nat} {ι : Type} [DecidableEq ι] {m m' : Mem α parts}
  {h h' : History α parts} {p p' : Producer α parts} {c c' : Consumer α parts} {cap : UInt64}

/-! ### The invariant

`Core` is the queue itself, whatever the two sides are doing: the indices count answers, and
the cells between them hold what was accepted and not yet delivered. On top of it each side
has a phase, which is what its stale copy of the other index is still good for. `promise` is
the only clause that reaches over the end of a call: after `Full() == false` there is room
until the producer uses it. -/

/-- One more element fits. -/
def HasRoom (cap : UInt64) (h : History α parts) : Prop :=
  h.accepted.length < h.popped.length + cap.toNat

/-- Memory and history: the cells from head to tail hold the accepted values that have not
been popped. `held` is about all accepted values from the head on; below the head the cells
belong to the producer again. -/
structure Core (cap : UInt64) (m : Mem α parts) (h : History α parts) : Prop where
  pos : 0 < cap.toNat
  capacity : m .capacity = cap
  tail : (m .tail).toNat = h.accepted.length
  head : (m .head).toNat = h.popped.length
  room : h.accepted.length ≤ h.popped.length + cap.toNat
  fifo : h.popped <+: h.accepted
  held : ∀ {q v}, h.popped.length ≤ q → h.accepted[q]? = some v →
    ∀ i, m (.cell (q % cap.toNat) i) = v i

/-- What `TryPush(v)` has established at its program counter. `HasRoom` is established by
the check and cannot be lost: only the producer takes room. -/
def PushPhase (cap : UInt64) (m : Mem α parts) (h : History α parts) (v : Elem α parts) :
    PushPc → Prop
  | .loadCapacity => True
  | .loadTail capacity => capacity = cap
  | .loadHead capacity tail => capacity = cap ∧ tail = m .tail
  | .copy capacity tail i => capacity = cap ∧ tail = m .tail ∧ HasRoom cap h ∧ i ≤ parts ∧
      ∀ k : Fin parts, k.val < i → m (.cell (h.accepted.length % cap.toNat) k) = v k

/-- Accesses a `TryPush` has made at its program counter. -/
def pushAccesses : PushPc → Nat
  | .loadCapacity => 0
  | .loadTail _ => 1
  | .loadHead .. => 2
  | .copy _ _ i => i + 3

/-- What is known of an operand `Full` has loaded. -/
def Seen (cap : UInt64) (m : Mem α parts) (h : History α parts) (seen : Operand → UInt64) :
    Operand → Prop
  | .tail => seen .tail = m .tail
  | .head => (seen .head).toNat ≤ h.popped.length
  | .capacity => seen .capacity = cap

/-- What the producer has established. -/
def ProducerPhase (cap : UInt64) (m : Mem α parts) (h : History α parts) : Producer α parts → Prop
  | .idle | .checked _ => True
  | .pushing v pc log => PushPhase cap m h v pc ∧ log.accesses = pushAccesses pc ∧
      (log.room = true → HasRoom cap h) ∧ h.room = false
  | .checking pc => ∀ o, o ∉ pc.next :: pc.rest → Seen cap m h pc.seen o
  | .pushed _ log ok => (ok = false → log.occupancy = cap.toNat) ∧ (log.room = true → ok = true)

/-- What the consumer has established. Of a call that found nothing, the occupancy at its
tail load is all that matters. -/
def ConsumerPhase (cap : UInt64) (m : Mem α parts) (h : History α parts) : Consumer α parts → Prop
  | .idle => True
  | .popping (.loadCapacity _) _ => True
  | .popping (.loadHead _ capacity) _ => capacity = cap
  | .popping (.loadTail _ capacity head) _ => capacity = cap ∧ head = m .head
  | .popping (.copy out capacity head i) _ => capacity = cap ∧ head = m .head ∧
      h.popped.length < h.accepted.length ∧
      ∀ k : Fin parts, k.val < i → out k = m (.cell (h.popped.length % cap.toNat) k)
  | .popped occ ok _ => ok = false → occ = 0

/-- The invariant of the queue. -/
structure Inv (cap : UInt64) (m : Mem α parts) (h : History α parts) (p : Producer α parts)
    (c : Consumer α parts) : Prop where
  core : Core cap m h
  promise : h.room = true → HasRoom cap h
  producer : ProducerPhase cap m h p
  consumer : ConsumerPhase cap m h c

theorem Core.le (hc : Core cap m h) : h.popped.length ≤ h.accepted.length := hc.fifo.length_le

/-- The queue's occupancy, in terms of the history. It is what was accepted less what was
popped, by the answers given. -/
theorem Core.queued_eq (hc : Core cap m h) :
    queued m = h.accepted.length - h.popped.length := by
  rw [queued, hc.tail, hc.head]

/-- The cell the producer fills next. By the bound on the occupancy it is none of the queued
ones. -/
theorem Core.tail_cell (hc : Core cap m h) :
    (m .tail % cap).toNat = h.accepted.length % cap.toNat := by
  rw [UInt64.toNat_mod, hc.tail]

/-- The cell the consumer empties next. -/
theorem Core.head_cell (hc : Core cap m h) :
    (m .head % cap).toNat = h.popped.length % cap.toNat := by
  rw [UInt64.toNat_mod, hc.head]

/-- While there is room, the cell being filled is none of the occupied ones. -/
theorem HasRoom.cell_ne {q : Nat} (hr : HasRoom cap h) (h1 : h.popped.length ≤ q)
    (h2 : q < h.accepted.length) : q % cap.toNat ≠ h.accepted.length % cap.toNat := by
  unfold HasRoom at hr
  exact Word.mod_ne_of_lt_add h2 (by omega)

/-- The producer's test is exact, given its copy of the tail and the current head. -/
theorem Core.sub_ge_iff (hc : Core cap m h) :
    m .tail - m .head ≥ cap ↔ cap.toNat ≤ h.accepted.length - h.popped.length := by
  have hle := hc.le
  rw [ge_iff_le, UInt64.le_iff_toNat_le,
    Word.toNat_sub_of_le (by rw [hc.tail, hc.head]; exact hle), hc.tail, hc.head]

theorem Core.constructed (depth : UInt32) (junk : Nat → Elem α parts) :
    Core (effectiveDepth depth).toUInt64 (constructed depth junk) ⟨[], [], false⟩ where
  pos := by
    rw [UInt32.toNat_toUInt64]
    exact effectiveDepth_pos depth
  capacity := rfl
  tail := rfl
  head := rfl
  room := Nat.zero_le _
  fifo := List.prefix_refl _
  held := by simp

/-! ### The producer's moves

It writes into a cell that is not between head and tail, so `Core` does not notice the copy;
the tail store then appends what was copied. The stale head can only make it refuse when
there is room in truth, never push when there is none. -/

theorem Inv.refuse {v : Elem α parts} {capacity tail : UInt64} {log : PushLog}
    (hi : Inv cap m h (.pushing v (.loadHead capacity tail) log) c) (hfull : tail - m .head ≥ capacity) :
    Inv cap m h (.pushed v (log.note m (.loadHead capacity tail)) false) c := by
  obtain ⟨⟨rfl, rfl⟩, -, hroom, -⟩ := hi.producer
  have hge := hi.core.sub_ge_iff.mp hfull
  have hroom' := hi.core.room
  have hle := hi.core.le
  refine { hi with producer := ⟨fun _ => ?_, fun hlog => ?_⟩ }
  · show queued m = capacity.toNat
    rw [hi.core.queued_eq]
    omega
  · have := hroom hlog
    unfold HasRoom at this
    omega

theorem Inv.accept {v : Elem α parts} {capacity tail : UInt64} {log : PushLog}
    (hi : Inv cap m h (.pushing v (.loadHead capacity tail) log) c)
    (hroom : ¬ tail - m .head ≥ capacity) :
    Inv cap m h (.pushing v (.copy capacity tail 0) (log.note m (.loadHead capacity tail))) c := by
  obtain ⟨⟨rfl, rfl⟩, hacc, hlog, hno⟩ := hi.producer
  rw [hi.core.sub_ge_iff] at hroom
  have hle := hi.core.le
  refine { hi with producer := ⟨⟨rfl, rfl, ?_, Nat.zero_le _, by simp⟩, ?_, hlog, hno⟩ }
  · unfold HasRoom
    omega
  · simp only [PushLog.note, pushAccesses] at hacc ⊢
    omega

/-- Filling a piece of the next cell touches nothing anybody else looks at. -/
theorem Inv.copyIn {v : Elem α parts} {capacity tail : UInt64} {i : Nat} {log : PushLog}
    (hi : Inv cap m h (.pushing v (.copy capacity tail i) log) c) (hlt : i < parts) :
    Inv cap (Function.update m (.cell (tail % capacity).toNat ⟨i, hlt⟩) (v ⟨i, hlt⟩)) h
      (.pushing v (.copy capacity tail (i + 1)) (log.note m (.copy capacity tail i))) c := by
  obtain ⟨⟨rfl, rfl, hroom, hle, hwords⟩, hacc, hlog, hno⟩ := hi.producer
  rw [hi.core.tail_cell]
  -- the cell being filled is none of the queued ones
  have hother : ∀ {q : Nat} (k : Fin parts), h.popped.length ≤ q → q < h.accepted.length →
      Function.update m (.cell (h.accepted.length % capacity.toNat) ⟨i, hlt⟩) (v ⟨i, hlt⟩)
        (.cell (q % capacity.toNat) k) = m (.cell (q % capacity.toNat) k) := by
    intro q k h1 h2
    refine Function.update_of_ne (fun heq => ?_) _ _
    exact hroom.cell_ne h1 h2 (Loc.cell.inj heq).1
  refine ⟨?_, hi.promise, ?_, ?_⟩
  · exact { hi.core with
      capacity := by rw [Function.update_of_ne (by simp)]; exact hi.core.capacity
      tail := by rw [Function.update_of_ne (by simp)]; exact hi.core.tail
      head := by rw [Function.update_of_ne (by simp)]; exact hi.core.head
      held := by
        intro q u hq hu k
        rw [hother k hq (List.getElem?_eq_some_iff.mp hu).1]
        exact hi.core.held hq hu k }
  · refine ⟨⟨rfl, ?_, hroom, hlt, ?_⟩, ?_, hlog, hno⟩
    · rw [Function.update_of_ne (by simp)]
    · intro k hk
      by_cases hki : k = ⟨i, hlt⟩
      · subst hki
        exact Function.update_self ..
      · rw [Function.update_of_ne (by simpa using hki)]
        have hne : k.val ≠ i := fun h => hki (Fin.ext h)
        exact hwords k (by omega)
    · simp only [PushLog.note, pushAccesses] at hacc ⊢
      omega
  · have hcons := hi.consumer
    cases c with
    | popping pc occ =>
        cases pc with
        | loadTail out capacity head =>
            exact ⟨hcons.1, by rw [Function.update_of_ne (by simp)]; exact hcons.2⟩
        | copy out capacity head k =>
            obtain ⟨h1, h2, h3, h4⟩ := hcons
            refine ⟨h1, by rw [Function.update_of_ne (by simp)]; exact h2, h3, ?_⟩
            intro j hj
            rw [hother j (Nat.le_refl _) h3]
            exact h4 j hj
        | _ => exact hcons
    | _ => exact hcons

/-- (Q3): the filled cell joins the queue. Before that the value is in the cell and in
nobody's sight. -/
theorem Inv.storeTail {v : Elem α parts} {capacity tail : UInt64} {i : Nat} {log : PushLog}
    (hi : Inv cap m h (.pushing v (.copy capacity tail i) log) c) (hge : ¬ i < parts)
    (hlen : h.accepted.length + 1 < 2 ^ 64) :
    Inv cap (Function.update m .tail (tail + 1)) { h with accepted := h.accepted ++ [v] }
      (.pushed v (log.note m (.copy capacity tail i)) true) c := by
  obtain ⟨⟨rfl, rfl, hroom, hle, hwords⟩, -, hlog, hno⟩ := hi.producer
  have htail : (m .tail + 1).toNat = h.accepted.length + 1 := by
    rw [Word.toNat_add_of_lt (by rw [hi.core.tail]; exact hlen), hi.core.tail]
    rfl
  unfold HasRoom at hroom
  refine ⟨?_, ?_, ⟨by simp, fun _ => rfl⟩, ?_⟩
  · exact {
      pos := hi.core.pos
      capacity := by rw [Function.update_of_ne (by simp)]; exact hi.core.capacity
      tail := by rw [Function.update_self, htail, List.length_append, List.length_singleton]
      head := by rw [Function.update_of_ne (by simp)]; exact hi.core.head
      room := by
        show (h.accepted ++ [v]).length ≤ h.popped.length + capacity.toNat
        rw [List.length_append, List.length_singleton]
        omega
      fifo := hi.core.fifo.trans (List.prefix_append _ _)
      held := by
        intro q u hq hu k
        rw [Function.update_of_ne (by simp)]
        rcases Word.getElem?_append_singleton hu with hu | ⟨rfl, rfl⟩
        · exact hi.core.held hq hu k
        · exact hwords k (by have := k.isLt; omega) }
  · intro hr
    rw [hno] at hr
    cases hr
  -- the queue grew, so a consumer in the middle of its copy still has its value
  · have hcons := hi.consumer
    cases c with
    | popping pc occ =>
        cases pc with
        | loadTail out capacity head =>
            exact ⟨hcons.1, by rw [Function.update_of_ne (by simp)]; exact hcons.2⟩
        | copy out capacity head k =>
            obtain ⟨h1, h2, h3, h4⟩ := hcons
            refine ⟨h1, by rw [Function.update_of_ne (by simp)]; exact h2, ?_, ?_⟩
            · show h.popped.length < (h.accepted ++ [v]).length
              rw [List.length_append, List.length_singleton]
              omega
            · intro j hj
              rw [Function.update_of_ne (by simp)]
              exact h4 j hj
        | _ => exact hcons
    | _ => exact hcons

/-- Loading one more operand of `Full`. -/
theorem Seen.load {seen : Operand → UInt64} {o : Operand} {rest : List Operand} (hc : Core cap m h)
    (hseen : ∀ o', o' ∉ o :: rest → Seen cap m h seen o') :
    ∀ o', o' ∉ rest → Seen cap m h (Function.update seen o (o.read m)) o' := by
  intro o' ho'
  by_cases heq : o' = o
  · subst heq
    cases o' with
    | tail => exact Function.update_self ..
    | head =>
        show (Function.update seen .head (m .head) .head).toNat ≤ _
        rw [Function.update_self, hc.head]
    | capacity =>
        show Function.update seen .capacity (m .capacity) .capacity = cap
        rw [Function.update_self, hc.capacity]
  · have := hseen o' (by simp [heq, ho'])
    cases o' <;> simpa only [Seen, Function.update_of_ne heq] using this

/-- `Full() == false` is the truth at the time of its return. -/
theorem Seen.hasRoom {seen : Operand → UInt64} (hc : Core cap m h)
    (hseen : ∀ o, Seen cap m h seen o) (hb : ¬ seen .tail - seen .head ≥ seen .capacity) :
    HasRoom cap h := by
  have h1 : seen .tail = m .tail := hseen .tail
  have h2 : (seen .head).toNat ≤ h.popped.length := hseen .head
  have h3 : seen .capacity = cap := hseen .capacity
  have hle := hc.le
  rw [h1, h3, ge_iff_le, UInt64.le_iff_toNat_le,
    Word.toNat_sub_of_le (by rw [hc.tail]; omega), hc.tail] at hb
  unfold HasRoom
  omega

/-- **Every move of the producer keeps the invariant.** -/
theorem Inv.produce (hi : Inv cap m h p c) (hmove : ProducerMove m h p m' h' p')
    (hlen : h'.accepted.length < 2 ^ 64) : Inv cap m' h' p' c := by
  cases hmove with
  | callPush _ v hp =>
      refine ⟨{ hi.core with }, by simp, ⟨trivial, rfl, hi.promise, rfl⟩, ?_⟩
      exact hi.consumer
  | callFull _ o rest hp hperm =>
      refine { hi with producer := ?_ }
      intro o' ho'
      refine absurd (hperm.mem_iff.mpr ?_) ho'
      cases o' <;> simp
  | loadCapacity v log =>
      obtain ⟨-, hacc, hlog, hno⟩ := hi.producer
      exact { hi with producer := ⟨hi.core.capacity, congrArg (· + 1) hacc, hlog, hno⟩ }
  | loadTail v capacity log =>
      obtain ⟨hcap, hacc, hlog, hno⟩ := hi.producer
      exact { hi with producer := ⟨⟨hcap, rfl⟩, congrArg (· + 1) hacc, hlog, hno⟩ }
  | refuse v capacity tail log hfull => exact hi.refuse hfull
  | accept v capacity tail log hroom => exact hi.accept hroom
  | copy v capacity tail i log hlt => exact hi.copyIn hlt
  | storeTail v capacity tail i log hge =>
      exact hi.storeTail hge (by simpa using hlen)
  | look o o' rest seen => exact { hi with producer := Seen.load hi.core hi.producer }
  | decide o seen seen' b hs hb =>
      have hseen : ∀ o', Seen cap m h seen' o' := by
        intro o'
        rw [hs]
        exact Seen.load hi.core hi.producer o' (by simp)
      refine ⟨{ hi.core with }, ?_, trivial, hi.consumer⟩
      intro hr
      rcases Bool.or_eq_true_iff.mp hr with hr | hr
      · exact hi.promise hr
      · rw [hb, Bool.not_eq_true', decide_eq_false_iff_not] at hr
        have hroom : HasRoom cap h := Seen.hasRoom hi.core hseen hr
        exact hroom

/-! ### The consumer's moves

What it copies lies between head and tail, where the producer does not write. The head store
takes the front away, and all that the producer knows gets better by it. -/

/-- What the producer knows survives a pop: there is only more room. -/
theorem ProducerPhase.pop {out : Elem α parts} {x : UInt64} (hp : ProducerPhase cap m h p) :
    ProducerPhase cap (Function.update m .head x) { h with popped := h.popped ++ [out] } p := by
  have hroom : HasRoom cap h → HasRoom cap { h with popped := h.popped ++ [out] } := by
    intro hr
    unfold HasRoom at hr
    show h.accepted.length < (h.popped ++ [out]).length + cap.toNat
    rw [List.length_append]
    omega
  cases p with
  | pushing v pc log =>
      obtain ⟨hpc, hacc, hlog, hno⟩ := hp
      refine ⟨?_, hacc, fun hl => hroom (hlog hl), hno⟩
      cases pc with
      | loadHead capacity tail =>
          exact ⟨hpc.1, by rw [Function.update_of_ne (by simp)]; exact hpc.2⟩
      | copy capacity tail i =>
          obtain ⟨h1, h2, h3, h4, h5⟩ := hpc
          refine ⟨h1, by rw [Function.update_of_ne (by simp)]; exact h2, hroom h3, h4, ?_⟩
          intro k hk
          rw [Function.update_of_ne (by simp)]
          exact h5 k hk
      | _ => exact hpc
  | checking pc =>
      intro o ho
      have hseen := hp o ho
      cases o with
      | tail =>
          show pc.seen .tail = _
          rw [Function.update_of_ne (by simp)]
          exact hseen
      | head =>
          show (pc.seen .head).toNat ≤ (h.popped ++ [out]).length
          rw [List.length_append]
          exact Nat.le_add_right_of_le hseen
      | capacity => exact hseen
  | _ => exact hp

/-- (Q2): the copied cell leaves the queue. From here on the producer may write there. -/
theorem Inv.storeHead {out : Elem α parts} {capacity head : UInt64} {i occ : Nat}
    (hi : Inv cap m h p (.popping (.copy out capacity head i) occ)) (hge : ¬ i < parts)
    (hlen : h.accepted.length < 2 ^ 64) :
    Inv cap (Function.update m .head (head + 1)) { h with popped := h.popped ++ [out] } p
      (.popped occ true out) := by
  obtain ⟨rfl, rfl, hlt, hcopied⟩ := hi.consumer
  have hhead : (m .head + 1).toNat = h.popped.length + 1 := by
    rw [Word.toNat_add_of_lt (by rw [hi.core.head]; simp; omega), hi.core.head]
    rfl
  -- the copy is the oldest value in the queue
  have hout : h.accepted[h.popped.length]? = some out := by
    rw [List.getElem?_eq_getElem hlt]
    congr 1
    funext k
    rw [hcopied k (by have := k.isLt; omega)]
    exact (hi.core.held (Nat.le_refl _) (List.getElem?_eq_getElem hlt) k).symm
  have hlen' : (h.popped ++ [out]).length = h.popped.length + 1 := by
    rw [List.length_append, List.length_singleton]
  refine ⟨?_, ?_, hi.producer.pop, fun hok => by cases hok⟩
  · have hroom := hi.core.room
    exact {
      pos := hi.core.pos
      capacity := by rw [Function.update_of_ne (by simp)]; exact hi.core.capacity
      tail := by rw [Function.update_of_ne (by simp)]; exact hi.core.tail
      head := by rw [Function.update_self, hhead, hlen']
      room := by
        show h.accepted.length ≤ (h.popped ++ [out]).length + capacity.toNat
        omega
      fifo := by
        -- what was popped is a proper prefix, and `out` comes right behind it
        obtain ⟨rest, hrest⟩ := hi.core.fifo
        rw [← hrest] at hout
        cases rest with
        | nil => simp at hout
        | cons u rest =>
            have hu : u = out := by simpa using hout
            refine ⟨rest, ?_⟩
            show (h.popped ++ [out]) ++ rest = h.accepted
            rw [List.append_assoc, List.singleton_append, ← hu, hrest]
      held := by
        intro q u hq hu k
        rw [Function.update_of_ne (by simp)]
        have hq' : (h.popped ++ [out]).length ≤ q := hq
        exact hi.core.held (by omega) hu k }
  · intro hr
    have := hi.promise hr
    unfold HasRoom at this ⊢
    show h.accepted.length < (h.popped ++ [out]).length + capacity.toNat
    omega

/-- **Every move of the consumer keeps the invariant.** -/
theorem Inv.consume (hi : Inv cap m h p c) (hmove : ConsumerMove m h c m' h' c')
    (hlen : h'.accepted.length < 2 ^ 64) : Inv cap m' h' p c' := by
  cases hmove with
  | callPop _ out hc => exact { hi with consumer := trivial }
  | loadCapacity out occ => exact { hi with consumer := hi.core.capacity }
  | loadHead out capacity occ => exact { hi with consumer := ⟨hi.consumer, rfl⟩ }
  | empty out capacity head occ heq =>
      refine { hi with consumer := fun _ => ?_ }
      obtain ⟨-, rfl⟩ := hi.consumer
      rw [queued, heq, Nat.sub_self]
  | claim out capacity head occ hne =>
      obtain ⟨hcap, rfl⟩ := hi.consumer
      refine { hi with consumer := ⟨hcap, rfl, ?_, by simp⟩ }
      have hle := hi.core.le
      have hdiff : h.popped.length ≠ h.accepted.length := by
        rw [← hi.core.head, ← hi.core.tail]
        exact fun heq => hne (UInt64.toNat_inj.mp heq)
      omega
  | copy out capacity head i occ hlt =>
      obtain ⟨rfl, rfl, hne, hcopied⟩ := hi.consumer
      refine { hi with consumer := ⟨rfl, rfl, hne, ?_⟩ }
      intro k hk
      rw [hi.core.head_cell]
      by_cases hki : k = ⟨i, hlt⟩
      · subst hki
        exact Function.update_self ..
      · rw [Function.update_of_ne hki]
        have hval : k.val ≠ i := fun h => hki (Fin.ext h)
        exact hcopied k (by omega)
  | storeHead out capacity head i occ hge => exact hi.storeHead hge hlen

/-! ### Whole runs

The bound on the accepted values keeps the indices from wrapping; everything else in the
invariant is kept unconditionally. -/

theorem ProducerMove.accepted_le (hmove : ProducerMove m h p m' h' p') :
    h.accepted.length ≤ h'.accepted.length := by
  cases hmove with
  | storeTail v capacity tail i log hge =>
      show h.accepted.length ≤ (h.accepted ++ [v]).length
      rw [List.length_append]
      exact Nat.le_add_right _ _
  | _ => exact Nat.le_refl _

theorem ConsumerMove.accepted_eq (hmove : ConsumerMove m h c m' h' c') :
    h'.accepted = h.accepted := by
  cases hmove <;> rfl

/-- The invariant along a run, under the bound on the accepted values. -/
theorem World.step_inv {w w' : World α parts ι} {l : Label α parts ι}
    (hi : w.hist.accepted.length < 2 ^ 64 → Inv cap w.mem w.hist w.producer w.consumer)
    (h : w.step l = some w') :
    w'.hist.accepted.length < 2 ^ 64 → Inv cap w'.mem w'.hist w'.producer w'.consumer := by
  intro hlen
  rcases World.step_cases h with ⟨hmove, hc⟩ | ⟨hmove, hp⟩ | ⟨hm, hh, hp, hc⟩
  · rw [hc]
    exact (hi (hmove.accepted_le.trans_lt hlen)).produce hmove hlen
  · rw [hp]
    exact (hi (by rw [← hmove.accepted_eq]; exact hlen)).consume hmove hlen
  · rw [hm, hh, hp, hc]
    exact hi (by rw [← hh]; exact hlen)

omit [DecidableEq ι] in
theorem World.init_inv (depth : UInt32) (junk : Nat → Elem α parts) :
    Inv (effectiveDepth depth).toUInt64 (World.init depth junk ι).mem (World.init depth junk ι).hist
      (World.init depth junk ι).producer (World.init depth junk ι).consumer :=
  ⟨Core.constructed depth junk, by simp [World.init], trivial, trivial⟩

theorem World.run_inv {depth : UInt32} {junk : Nat → Elem α parts} {w : World α parts ι}
    {ls : List (Label α parts ι)} (h : World.run depth junk ls = some w)
    (hlen : w.hist.accepted.length < 2 ^ 64) :
    Inv (effectiveDepth depth).toUInt64 w.mem w.hist w.producer w.consumer :=
  Run.exec_invariant (I := fun w : World α parts ι => w.hist.accepted.length < 2 ^ 64 →
      Inv (effectiveDepth depth).toUInt64 w.mem w.hist w.producer w.consumer)
    World.step_inv (fun _ => World.init_inv depth junk) h hlen

/-! ### The abstract queue

A list with a bound. The points at which the calls take effect are the two index stores, so
a step of the code is at most one step of the list, and the refinement is a step lemma
without an invariant of its own. -/

/-- What a step of the ring does to the bounded queue it implements. -/
inductive QueueStep {β : Type} (bound : Nat) : List β → List β → Prop
  | stutter (q : List β) : QueueStep bound q q
  | enqueue (q : List β) (v : β) (hroom : q.length < bound) : QueueStep bound q (q ++ [v])
  | dequeue (q : List β) (v : β) : QueueStep bound (v :: q) q

/-- The values accepted and not yet popped. -/
def History.queue (h : History α parts) : List (Elem α parts) := h.accepted.drop h.popped.length

/-- **Every step of the ring is a step of the bounded queue**: the tail store
enqueues, the head store dequeues the front, nothing else matters. -/
theorem World.step_refines {w w' : World α parts ι} {l : Label α parts ι}
    (hi : Inv cap w.mem w.hist w.producer w.consumer) (h : w.step l = some w')
    (hlen : w'.hist.accepted.length < 2 ^ 64) :
    QueueStep cap.toNat w.hist.queue w'.hist.queue := by
  have hi' := World.step_inv (fun _ => hi) h hlen
  obtain ⟨m, p, c, ms, hist⟩ := w
  obtain ⟨m', p', c', ms', hist'⟩ := w'
  dsimp only at hi hi' hlen ⊢
  rcases World.step_cases h with ⟨hmove, -⟩ | ⟨hmove, -⟩ | ⟨-, hh, -⟩
  · dsimp only at hmove
    cases hmove with
    | storeTail v capacity tail i log hge =>
        obtain ⟨⟨rfl, -, hroom, -⟩, -⟩ := hi.producer
        have hle := hi.core.le
        unfold HasRoom at hroom
        rw [History.queue, History.queue]
        dsimp only
        rw [List.drop_append_of_le_length hle]
        exact .enqueue _ v (by rw [List.length_drop]; omega)
    | _ => exact .stutter _
  · dsimp only at hmove
    cases hmove with
    | storeHead out capacity head i occ hge =>
        obtain ⟨rest, hrest⟩ := hi'.core.fifo
        dsimp only at hrest
        rw [List.append_assoc, List.singleton_append] at hrest
        rw [History.queue, History.queue]
        dsimp only
        rw [← hrest, List.length_append, List.length_singleton, List.drop_left,
          List.drop_append, List.drop_of_length_le (by omega)]
        simp only [Nat.add_sub_cancel_left, List.nil_append, List.drop_succ_cons, List.drop_zero]
        exact .dequeue _ out
    | _ => exact .stutter _
  · dsimp only at hh
    rw [hh]
    exact .stutter _

/-! ### The contract

What a user of the queue may rely on, in every reachable state and by the memory as it is
there. The history only has the answers that the callers got, so `conserved` says that no
answer was a lie. -/

/-- The values in the cells from head to tail, oldest first. It is read off the memory, with
the physical indices. -/
def contents (bound : Nat) (m : Mem α parts) : List (Elem α parts) :=
  (List.range (queued m)).map fun k i => m (.cell (((m .head).toNat + k) % bound) i)

/-- The cell the producer's next access writes. -/
def Producer.writes? : Producer α parts → Option Nat
  | .pushing _ (.copy capacity tail i) _ =>
      if i < parts then some (tail % capacity).toNat else none
  | _ => none

/-- The cell the consumer is between the tail load and the head store for. -/
def Consumer.claims? : Consumer α parts → Option Nat
  | .popping (.copy _ capacity head _) _ => some (head % capacity).toNat
  | _ => none

/-- The contract of a queue that holds `bound` elements. -/
structure World.BoundedFifo (bound : Nat) (w : World α parts ι) : Prop where
  head_le : (w.mem .head).toNat ≤ (w.mem .tail).toNat
  tail_le : (w.mem .tail).toNat ≤ (w.mem .head).toNat + bound
  /-- Nothing lost, duplicated, invented or reordered. -/
  conserved : w.hist.accepted = w.hist.popped ++ contents bound w.mem
  /-- The producer never writes a cell the consumer has claimed, nor outside the array. -/
  exclusive : ∀ j, w.producer.writes? = some j → j < bound ∧ w.consumer.claims? ≠ some j
  push_refused : ∀ v log, w.producer = .pushed v log false → log.occupancy = bound
  pop_refused : ∀ occ out, w.consumer = .popped occ false out → occ = 0
  /-- `TryPush` after `Full() == false` succeeds. -/
  push_promised : ∀ v log ok, w.producer = .pushed v log ok → log.room = true → ok = true
  /-- `TryPush` is always enabled and returns within `parts + 4` of its accesses. -/
  push_returns : ∀ v pc log, w.producer = .pushing v pc log →
    log.accesses < parts + 4 ∧ (w.step .produce).isSome

theorem Core.conserved (hc : Core cap m h) : h.accepted = h.popped ++ contents cap.toNat m := by
  have hq := hc.queued_eq
  have hle := hc.le
  apply List.ext_getElem?
  intro q
  rcases Nat.lt_or_ge q h.popped.length with hlt | hge
  · rw [List.getElem?_append_left hlt]
    obtain ⟨rest, hrest⟩ := hc.fifo
    rw [← hrest, List.getElem?_append_left hlt]
  · rw [List.getElem?_append_right hge, contents, List.getElem?_map]
    rcases Nat.lt_or_ge q h.accepted.length with hqa | hqa
    · rw [List.getElem?_range (by omega), List.getElem?_eq_getElem hqa, Option.map_some]
      congr 1
      funext i
      rw [hc.head, Nat.add_sub_cancel' hge]
      exact (hc.held hge (List.getElem?_eq_getElem hqa) i).symm
    · rw [List.getElem?_eq_none hqa, List.getElem?_eq_none (by rw [List.length_range]; omega)]
      rfl

theorem Inv.exclusive (hi : Inv cap m h p c) {j : Nat} (hw : p.writes? = some j) :
    j < cap.toNat ∧ c.claims? ≠ some j := by
  have hpos := hi.core.pos
  cases p with
  | pushing v pc log =>
      cases pc with
      | copy capacity tail i =>
          obtain ⟨⟨rfl, rfl, hroom, -, -⟩, -⟩ := hi.producer
          simp only [Producer.writes?] at hw
          split_ifs at hw
          obtain rfl := Option.some.inj hw
          rw [hi.core.tail_cell]
          refine ⟨Nat.mod_lt _ hpos, ?_⟩
          intro hcl
          cases c with
          | popping pc occ =>
              cases pc with
              | copy out capacity' head k =>
                  obtain ⟨rfl, rfl, hlt, -⟩ := hi.consumer
                  have heq := Option.some.inj hcl
                  rw [hi.core.head_cell] at heq
                  exact hroom.cell_ne (Nat.le_refl _) hlt heq
              | _ => simp [Consumer.claims?] at hcl
          | _ => simp [Consumer.claims?] at hcl
      | _ => simp [Producer.writes?] at hw
  | _ => simp [Producer.writes?] at hw

/-- **`SpscQueue` is a linearizable bounded queue.** In every run, at every moment, and for
every depth: by the answers given so far, what was popped is the front of what was pushed,
in order and with nothing in between lost or changed, and what is left is what the memory
holds. -/
theorem run_boundedFifo {depth : UInt32} {junk : Nat → Elem α parts} {w : World α parts ι}
    {ls : List (Label α parts ι)} (hrun : World.run depth junk ls = some w)
    (hlen : w.hist.accepted.length < 2 ^ 64) :
    w.BoundedFifo (effectiveDepth depth).toNat := by
  have hi := World.run_inv hrun hlen
  have hbound : (effectiveDepth depth).toUInt64.toNat = (effectiveDepth depth).toNat :=
    UInt32.toNat_toUInt64 _
  have hle := hi.core.le
  have hroom := hi.core.room
  have hprod := hi.producer
  rw [← hbound]
  refine ⟨?_, ?_, hi.core.conserved, fun j hj => hi.exclusive hj, ?_, ?_, ?_, ?_⟩
  · rw [hi.core.head, hi.core.tail]; exact hle
  · rw [hi.core.head, hi.core.tail]; exact hroom
  · intro v log hp
    rw [hp] at hprod
    exact hprod.1 rfl
  · intro occ out hc
    have hcons := hi.consumer
    rw [hc] at hcons
    exact hcons rfl
  · intro v log ok hp
    rw [hp] at hprod
    exact hprod.2
  · intro v pc log hp
    rw [hp] at hprod
    obtain ⟨hpc, hacc, -⟩ := hprod
    refine ⟨?_, by simp only [World.step, hp, Option.isSome_some]⟩
    rw [hacc]
    cases pc with
    | copy capacity tail i =>
        have := hpc.2.2.2.1
        simp only [pushAccesses]
        omega
    | _ => simp only [pushAccesses]; omega

/-- Depth zero, two pieces a value: a pop is cut in the middle of its copy, finds
the producer seeing a full queue, finishes, and a second push follows. -/
def cutPop : List (Label Nat 2 Unit) :=
  [[.callPush ![1, 2]], List.replicate 6 .produce, [.callPop ![0, 0]], List.replicate 4 .consume,
   [.callFull .head [.tail, .capacity]], List.replicate 3 .produce, List.replicate 2 .consume,
   [.callFull .capacity [.tail, .head]], List.replicate 3 .produce, [.callPush ![3, 4]],
   List.replicate 6 .produce].flatten

theorem run_boundedFifo_cutPop : ∃ w : World Nat 2 Unit,
    World.run 0 (fun _ => ![0, 0]) cutPop = some w ∧ w.hist.accepted = [![1, 2], ![3, 4]] ∧
    w.hist.popped = [![1, 2]] ∧ w.BoundedFifo 1 := by
  have hex : ∃ w : World Nat 2 Unit, World.run 0 (fun _ => ![0, 0]) cutPop = some w ∧
      w.hist.accepted = [![1, 2], ![3, 4]] ∧ w.hist.popped = [![1, 2]] :=
    Run.exists_exec (by decide +kernel)
  obtain ⟨w, hrun, hacc, hpop⟩ := hex
  exact ⟨w, hrun, hacc, hpop, run_boundedFifo hrun (by rw [hacc]; decide)⟩

end XmBase.Concurrency.SpscQueue
