import XmBase.Concurrency.WeakQueue
import Mathlib.Data.Fin.VecNotation
/-!
# XmBase.Concurrency.WeakFifo

**`SpscQueue` under the memory orders of the source**: in every run the plain cells are free
of races, what is popped is what was pushed, in order, and no answer is older than what its
thread knows.

Each thread needs one fact about the other that it can only learn from a load. For the
producer it is that the copy out of the cell it is about to overwrite happened before
(`Inv.freed`, from the head), for the consumer that the copy into the cell it is about to
read did (from the tail). That the cell is then nobody else's is counting: between two
visits of a cell the ring goes round once (`Inv.unread`, `Inv.unwritten`).
-/

namespace XmBase.Concurrency.WeakQueue

open WeakMemory (ThreadView Order Message History Place Marked UpToDate performIn)
open SpscQueue (Elem Loc Val PushPc PopPc FullPc SizePc Operand tryPush tryPop full size
  constructed effectiveDepth)
open Laps (laps)

variable {α : Type} {parts : Nat} {C : UInt64} {w w' : World α parts} {n t : Nat}
  {view : ThreadView (Place (Loc parts))}

/-! ### The producer's steps

Access by access. Only three of them change what others can see: a piece of the cell, the
last one of which fills it, and the tail. In front of each piece stands the question whether
the consumer may still be at the cell, and `Inv.freed` answers it from the head the producer
has loaded. -/

/-- The producer has only looked: its view may have grown, and nothing else is different. -/
theorem Inv.looks (hi : Inv C w) (pr : Producer α parts) {room : Bool}
    (hv : w.producerView.Le view)
    (hvs : begun w.accepted w.producer <+: begun w.accepted pr)
    (hwr : pr.written = w.producer.written)
    (hpr : ProducerInv C w.accepted.length w.popped.length view pr)
    (hroom : room = true → w.accepted.length < view.cur (.inl .head) + C.toNat)
    (hcalled : ∀ v pc log, pr = .pushing v pc log → room = false) :
    Inv C { w with producer := pr, producerView := view, room := room } where
  __ := hi
  written := fun l t m hm => (hi.written l t m hm).mono hvs
  cell_length := fun j i => by rw [hwr]; exact hi.cell_length j i
  knowsTail := hi.knowsTail.mono rfl hv
  knowsCells := fun j i => (hi.knowsCells j i).mono rfl hv
  known := hi.known.trans (Nat.add_le_add_right (hv.cur _) _)
  producer := hpr
  room := hroom
  called := hcalled

/-- What the producer loads of its own tail. It is the newest write, since nobody else
writes there. -/
theorem Inv.tail_value (hi : Inv C w) {o : Order}
    {m : Message (Place (Loc parts)) UInt64} (hm : (w.mem (.inl .tail))[t]? = some m)
    (hle : w.producerView.start o (.inl .tail) ≤ t) : m.value.toNat = w.accepted.length := by
  have hlast := hi.knowsTail.getLast hm hle
  rw [List.getLast?_eq_getElem?, hi.tail_length, Nat.add_sub_cancel] at hlast
  exact (hi.written _ _ _ hlast).1

/-- What the producer loads of the head. It may be an old one, and is then too small: the
queue looks fuller than it is. -/
theorem Inv.head_value (hi : Inv C w) {m : Message (Place (Loc parts)) UInt64}
    (hm : (w.mem (.inl .head))[t]? = some m) : m.value.toNat = t ∧ t ≤ w.popped.length := by
  have hlt := (List.getElem?_eq_some_iff.mp hm).1
  rw [hi.head_length] at hlt
  exact ⟨(hi.written _ _ _ hm).1, by omega⟩

/-- **Room found in the head is room in the cell**: the copies out of the cell happened
before. The head that was loaded carries their marks, and this is what (Q1) and (Q2) are
for; a relaxed load would give the same number and no order. -/
theorem Inv.freed (hi : Inv C w) {m : Message (Place (Loc parts)) UInt64}
    (hm : (w.mem (.inl .head))[t]? = some m) (ht : w.accepted.length < t + C.toNat) (i : Fin parts) :
    w.accepted.length / C.toNat ≤ m.view (.inr (.cell (w.accepted.length % C.toNat) i)) := by
  rcases Nat.lt_or_ge w.accepted.length C.toNat with hlt | hge
  · rw [Nat.div_eq_of_lt hlt]
    exact Nat.zero_le _
  · have hmark := (hi.written _ _ _ hm).2 (w.accepted.length - C.toNat) (by omega) i
    have hback : w.accepted.length = w.accepted.length - C.toNat + C.toNat := by omega
    rw [hback, Nat.add_div_right _ hi.pos, Nat.add_mod_right]
    exact hmark

/-- `TryPush` at its load of the head. Either there is room, and then it knows the cell to
be free, or the push is refused. -/
theorem Inv.push_head (hi : Inv C w) {v : Elem α parts} {tail : UInt64} {log : PushLog}
    (hpr : w.producer = .pushing v (.loadHead C tail) log)
    {m : Message (Place (Loc parts)) UInt64} (hm : (w.mem (.inl .head))[t]? = some m)
    (hle : w.producerView.cur (.inl .head) ≤ t) :
    Inv C { w with
      producerView := w.producerView.see .acquiring (.inl .head) t m.view
      producer := .afterPush v { log with head := t }
        (if tail - m.value ≥ C then .inr false else .inl (.copy C tail 0))
      accepted := w.accepted } := by
  have hprod := hi.producer
  rw [hpr] at hprod
  obtain ⟨⟨-, htail⟩, hfloor, hroom⟩ := hprod
  obtain ⟨hval, ht⟩ := hi.head_value hm
  have hlen := hi.fifo.length_le
  have hknown := hi.known
  have hv := w.producerView.le_see .acquiring (.inl .head) t m.view
  have hhead := w.producerView.le_see_self .acquiring (.inl .head) t m.view
  have hsub : (tail - m.value).toNat = w.accepted.length - t := by
    rw [Word.toNat_sub_of_le (by omega), htail, hval]
  have hroom' (hr : w.room = true) : w.accepted.length <
      (w.producerView.see .acquiring (.inl .head) t m.view).cur (.inl .head) + C.toNat := by
    have := hi.room hr
    omega
  by_cases hfull : tail - m.value ≥ C
  · have hge : C.toNat ≤ w.accepted.length - t := hsub ▸ UInt64.le_iff_toNat_le.mp hfull
    rw [if_pos hfull]
    refine hi.looks _ hv (by rw [hpr]; exact List.prefix_refl _) (by rw [hpr]; rfl) ?_ hroom'
      (fun _ _ _ _ => hi.called _ _ _ hpr)
    -- what it knew of the head says that there is no more room than this
    exact ⟨fun _ => ⟨hfloor.trans hle, by dsimp only; omega⟩,
      fun hr => by have := hroom hr; omega⟩
  · have hlt : w.accepted.length - t < C.toNat :=
      hsub ▸ UInt64.lt_iff_toNat_lt.mp (UInt64.not_le.mp hfull)
    rw [if_neg hfull]
    refine hi.looks _ hv (by rw [hpr]; exact List.prefix_append _ _) (by rw [hpr]; rfl) ?_ hroom'
      (fun _ _ _ _ => hi.called _ _ _ hpr)
    refine ⟨⟨rfl, htail, by omega, by omega, ?_⟩, by dsimp only; omega, fun hr => by omega⟩
    intro i
    exact (hi.freed hm (by omega) i).trans (ThreadView.view_le_see rfl _)

/-- `TryPush` after a load that decides nothing. -/
theorem Inv.push_goesOn (hi : Inv C w) {v : Elem α parts} {pc pc' : PushPc} {log : PushLog}
    (hpr : w.producer = .pushing v pc log) (hv : w.producerView.Le view)
    (hbegun : begun w.accepted (.pushing v pc' log) = begun w.accepted (.pushing v pc log))
    (hwr : (Producer.pushing v pc' log).written = (Producer.pushing v pc log).written)
    (hpc' : PushInv C w.accepted.length w.popped.length view pc') :
    Inv C { w with producerView := view, producer := .pushing v pc' log } := by
  have hhead : w.producerView.cur (.inl .head) ≤ view.cur (.inl .head) := hv.cur _
  have hprod := hi.producer
  rw [hpr] at hprod
  obtain ⟨-, hfloor, hroom⟩ := hprod
  refine hi.looks _ hv ?_ (by rw [hpr, hwr]) ?_ (fun hr => by have := hi.room hr; omega)
    (fun _ _ _ _ => hi.called _ _ _ hpr)
  · rw [hpr, hbegun]
  · exact ⟨hpc', hfloor.trans hhead, fun hr => by have := hroom hr; omega⟩

/-- `TryPush` at a piece of the cell: nobody else is at the cell, so the write races with
nothing. The marks on the cell are then all in the producer's view. -/
theorem Inv.unread (hi : Inv C w) {v : Elem α parts} {tail : UInt64} {k : Nat} {log : PushLog}
    (hpr : w.producer = .pushing v (.copy C tail k) log) (i : Fin parts) :
    UpToDate w.mem w.producerView (.inr (.cell (w.accepted.length % C.toNat) i)) := by
  have hprod := hi.producer
  rw [hpr] at hprod
  obtain ⟨⟨-, -, -, -, hmarks⟩, -⟩ := hprod
  -- the reads so far are of positions below the one that is written
  have hle : laps C.toNat w.popped.length (w.accepted.length % C.toNat) +
      underWay C.toNat w.popped.length w.consumer.read (w.accepted.length % C.toNat) i ≤
        laps C.toNat w.accepted.length (w.accepted.length % C.toNat) := by
    by_cases hread : i.val < w.consumer.read
    · have hlt : w.popped.length < w.accepted.length := by
        have hcons := hi.consumer
        cases hc : w.consumer with
        | popping pc log =>
            rw [hc] at hcons hread
            cases pc with
            | copy out c head k =>
                obtain ⟨⟨-, -, -, -, v, hget, -⟩, -⟩ := hcons
                exact (List.getElem?_eq_some_iff.mp hget).1
            | _ => simp [Consumer.read] at hread
        | _ => simp [hc, Consumer.read] at hread
      rw [laps_add_underWay hread]
      exact Laps.laps_mono hlt _
    · rw [underWay, if_neg (fun h => hread h.2)]
      exact Laps.laps_mono hi.fifo.length_le _
  rw [Laps.laps_self hi.pos] at hle
  have hmark := hmarks i
  unfold UpToDate
  rw [hi.mark_length]
  omega

/-- `TryPush` writes a piece of the cell. Until the tail is stored nobody looks at it. -/
theorem Inv.push_cell (hi : Inv C w) {v : Elem α parts} {tail : UInt64} {i : Fin parts}
    {log : PushLog} (hpr : w.producer = .pushing v (.copy C tail i.val) log) {j : Nat}
    (hj : j = w.accepted.length % C.toNat) {x : WeakMemory.View (Place (Loc parts))} :
    Inv C { w with
      mem := Function.update w.mem (.inl (.cell j i)) (w.mem (.inl (.cell j i)) ++ [⟨v i, x⟩])
      producerView :=
        w.producerView.see .relaxed (.inl (.cell j i)) (w.mem (.inl (.cell j i))).length ⊥
      producer := .pushing v (.copy C tail (i.val + 1)) log } := by
  subst hj
  have hv := w.producerView.le_see .relaxed (.inl (.cell (w.accepted.length % C.toNat) i))
    (w.mem (.inl (.cell (w.accepted.length % C.toNat) i))).length ⊥
  have hhead : w.producerView.cur (.inl .head) ≤ _ := hv.cur (.inl .head)
  have hprod := hi.producer
  have hcell := hi.cell_length
  rw [hpr] at hprod hcell
  obtain ⟨hpc, hfloor, hroom⟩ := hprod
  refine { hi with
    written := WeakMemory.History.forall_append
      (fun l t m hm => (hi.written l t m hm).mono (by rw [hpr]; exact List.prefix_refl _)) ?_
    tail_length := ?_, head_length := ?_, cell_length := ?_, mark_length := ?_
    knowsTail := hi.knowsTail.store _ _ _ _, knowsCells := fun j i => (hi.knowsCells j i).store _ _ _ _
    knowsHead := hi.knowsHead.append_of_ne (by simp) _
    knowsMarks := fun j' i' => (hi.knowsMarks j' i').append_of_ne (by simp) _
    known := hi.known.trans (Nat.add_le_add_right hhead _)
    producer := ⟨hpc.mono le_rfl hv, hfloor.trans hhead,
      fun hr => (hroom hr).trans_le (Nat.add_le_add_right hhead _)⟩
    room := fun hr => (hi.room hr).trans_le (Nat.add_le_add_right hhead _)
    called := fun _ _ _ _ => hi.called _ _ _ hpr }
  · intro k hk
    obtain rfl : k = w.accepted.length / C.toNat := by
      rw [hcell, Laps.laps_self hi.pos, underWay, if_neg (by simp [Producer.written])] at hk
      omega
    refine ⟨v, ?_, rfl⟩
    rw [Nat.mod_add_div']
    exact List.getElem?_concat_length
  · rw [WeakMemory.History.length_append_of_ne (by simp)]
    exact hi.tail_length
  · rw [WeakMemory.History.length_append_of_ne (by simp)]
    exact hi.head_length
  · intro j' i'
    rw [WeakMemory.History.length_append, hcell]
    simp only [Producer.written, underWay_succ, Sum.inl.injEq, Loc.cell.injEq, Fin.ext_iff]
    omega
  · intro j' i'
    rw [WeakMemory.History.length_append_of_ne (by simp)]
    exact hi.mark_length j' i'

/-- `TryPush` stores the tail. It is the step at which the value is accepted, and it
releases the cell to the consumer. -/
theorem Inv.push_tail (hi : Inv C w) {v : Elem α parts} {tail : UInt64} {k : Nat} {log : PushLog}
    (hpr : w.producer = .pushing v (.copy C tail k) log) (hk : parts ≤ k)
    (hlen : w.accepted.length + 1 < 2 ^ 64) :
    Inv C { w with
      mem := Function.update w.mem (.inl .tail) (w.mem (.inl .tail) ++
        [⟨tail + 1, w.producerView.released .releasing (.inl .tail) (w.mem (.inl .tail)).length⟩])
      producerView :=
        w.producerView.see .releasing (.inl .tail) (w.mem (.inl .tail)).length ⊥
      producer := .pushed v log true
      accepted := w.accepted ++ [v] } := by
  have hv := w.producerView.le_see .releasing (.inl .tail) (w.mem (.inl .tail)).length ⊥
  have hhead : w.producerView.cur (.inl .head) ≤ _ := hv.cur (.inl .head)
  have hprod := hi.producer
  have hcell := hi.cell_length
  rw [hpr] at hprod hcell
  simp only [Producer.written] at hcell
  obtain ⟨⟨-, htail, hbound, hknown, -⟩, -⟩ := hprod
  have hall (i : Fin parts) : i.val < k := i.isLt.trans_le hk
  have hnext : (tail + 1).toNat = w.accepted.length + 1 := by
    rw [Word.toNat_add_of_lt (by rw [htail]; exact hlen), htail]
    rfl
  have hgood : Good C (w.accepted ++ [v]) (.inl .tail) (w.mem (.inl .tail)).length
      ⟨tail + 1, w.producerView.released .releasing (.inl .tail) (w.mem (.inl .tail)).length⟩ := by
    rw [hi.tail_length]
    refine ⟨hnext, ?_⟩
    intro p hp i
    refine le_trans ?_ (ThreadView.cur_le_released rfl _)
    have hknows := hi.knowsCells (p % C.toNat) i
    unfold UpToDate at hknows
    rw [hcell, laps_add_underWay (hall i)] at hknows
    have hlap := Laps.lap_lt_laps hi.pos hp
    omega
  refine { hi with
    written := WeakMemory.History.forall_append
      (fun l t m hm => (hi.written l t m hm).mono (by rw [hpr]; exact List.prefix_refl _)) hgood
    tail_length := ?_, head_length := ?_, cell_length := ?_, mark_length := ?_
    knowsTail := hi.knowsTail.store _ _ _ _, knowsCells := fun j i => (hi.knowsCells j i).store _ _ _ _
    knowsHead := hi.knowsHead.append_of_ne (by simp) _
    knowsMarks := fun j' i' => (hi.knowsMarks j' i').append_of_ne (by simp) _
    fifo := hi.fifo.trans (List.prefix_append _ _)
    bounded := ?_
    known := ?_
    producer := ⟨by simp, fun _ => rfl⟩
    consumer := hi.consumer.mono (List.prefix_append _ _) (.refl _)
    room := ?_
    called := by simp }
  · rw [WeakMemory.History.length_append, if_pos rfl, hi.tail_length, List.length_append]
    rfl
  · rw [WeakMemory.History.length_append_of_ne (by simp)]
    exact hi.head_length
  · intro j i
    rw [WeakMemory.History.length_append_of_ne (by simp), hcell, laps_add_underWay (hall i)]
    simp [Producer.written, underWay_zero]
  · intro j i
    rw [WeakMemory.History.length_append_of_ne (by simp)]
    exact hi.mark_length j i
  · rw [List.length_append, List.length_singleton]
    exact hbound
  · rw [List.length_append, List.length_singleton]
    exact hknown.trans_le (Nat.add_le_add_right hhead _)
  · intro hr
    rw [hi.called _ _ _ hpr] at hr
    cases hr

/-- `TryPush` at an access. -/
theorem Inv.push_step (hi : Inv C w) {v : Elem α parts} {pc : PushPc} {log : PushLog}
    (hpr : w.producer = .pushing v pc log) {mem : History (Marked (Val α parts))}
    {next : PushPc ⊕ Bool} {raced : Bool}
    (hp : performIn plain (pushOrder pc) t w.mem w.producerView (tryPush v pc) =
      some (mem, view, next, raced))
    (hlen : (accept v w.accepted next).length < 2 ^ 64) :
    Inv C { w with
      mem := mem
      producerView := view
      producer := .afterPush v (log.note t pc) next
      accepted := accept v w.accepted next
      raced := w.raced || raced } := by
  have hprod := hi.producer
  rw [hpr] at hprod
  obtain ⟨hpc, hfloor, hroom⟩ := hprod
  cases pc with
  | loadCapacity =>
      obtain ⟨m, hm, -, rfl, rfl, rfl, rfl⟩ := WeakMemory.performIn_load rfl hp
      rw [Bool.or_false]
      exact hi.push_goesOn hpr (ThreadView.le_see _ _ _ _ _) rfl rfl (hi.written _ _ _ hm)
  | loadTail c =>
      obtain ⟨m, hm, hle, rfl, rfl, rfl, rfl⟩ := WeakMemory.performIn_load rfl hp
      rw [Bool.or_false]
      exact hi.push_goesOn hpr (ThreadView.le_see _ _ _ _ _) rfl rfl ⟨hpc, hi.tail_value hm hle⟩
  | loadHead c tail =>
      obtain ⟨m, hm, hle, rfl, rfl, rfl, rfl⟩ := WeakMemory.performIn_load rfl hp
      obtain ⟨rfl, -⟩ := hpc
      have hstep := hi.push_head hpr hm ((w.producerView.cur_le_start _ _).trans hle)
      rw [Bool.or_false, accept_ite]
      exact hstep
  | copy c tail k =>
      obtain ⟨rfl, htail, -⟩ := hpc
      have hcell : (tail % c).toNat = w.accepted.length % c.toNat := by
        rw [UInt64.toNat_mod, htail]
      by_cases hk : k < parts
      · simp only [tryPush, dif_pos hk] at hp
        obtain ⟨rfl, rfl, rfl, rfl⟩ := WeakMemory.performIn_write rfl (hi.knowsCells _ _)
          (by rw [hcell]; exact hi.unread hpr ⟨k, hk⟩) hp
        rw [Bool.or_false]
        exact hi.push_cell (i := ⟨k, hk⟩) hpr hcell
      · simp only [tryPush, dif_neg hk] at hp
        obtain ⟨rfl, rfl, rfl, rfl⟩ := WeakMemory.performIn_store rfl hp
        rw [Bool.or_false]
        exact hi.push_tail hpr (by omega) (by simpa [accept] using hlen)

/-- What `Full` has loaded, after one more operand. -/
theorem Operand.loaded_update {next : Operand} {rest : List Operand} {seen : Operand → UInt64}
    {x : UInt64} (hnot : ∀ o, o ∉ next :: rest → Operand.Loaded C n view (seen o) o)
    (hx : Operand.Loaded C n view x next) :
    ∀ o, o ∉ rest → Operand.Loaded C n view (Function.update seen next x o) o := by
  intro o ho
  by_cases hon : o = next
  · subst hon
    rw [Function.update_self]
    exact hx
  · rw [Function.update_of_ne hon]
    exact hnot o (by simp [hon, ho])

/-- `Full` after a load: the next operand, or the answer. -/
theorem Inv.full_next (hi : Inv C w) (hv : w.producerView.Le view) (hpr : w.producer.written = 0)
    (hbegun : begun w.accepted w.producer = w.accepted) {rest : List Operand}
    {seen : Operand → UInt64}
    (hseen : ∀ o, o ∉ rest → Operand.Loaded C w.accepted.length view (seen o) o) :
    Inv C { w with
      producerView := view
      producer := .afterFull (full.fullNext rest seen)
      room := w.room ||
        (full.fullNext rest seen).elim (fun _ => false) (fun isFull => !isFull) } := by
  have hhead : w.producerView.cur (.inl .head) ≤ view.cur (.inl .head) := hv.cur _
  have hroom (hr : w.room = true) : w.accepted.length < view.cur (.inl .head) + C.toNat :=
    (hi.room hr).trans_le (Nat.add_le_add_right hhead _)
  cases rest with
  | cons o rest =>
      simp only [full.fullNext, Sum.elim_inl, Bool.or_false]
      exact hi.looks _ hv (by rw [hbegun]; exact List.prefix_refl _) hpr.symm hseen hroom
        (by simp [Producer.afterFull])
  | nil =>
      simp only [full.fullNext, Sum.elim_inr]
      refine hi.looks _ hv (by rw [hbegun]; exact List.prefix_refl _) hpr.symm trivial ?_
        (by simp [Producer.afterFull])
      intro hr
      rcases Bool.or_eq_true_iff.mp hr with hr | hr
      · exact hroom hr
      · -- the answer is what the loaded head leaves of room
        have htail : (seen .tail).toNat = w.accepted.length := hseen .tail (by simp)
        obtain ⟨hle, hcur⟩ : (seen .head).toNat ≤ w.accepted.length ∧
            (seen .head).toNat ≤ view.cur (.inl .head) := hseen .head (by simp)
        have hcap : seen .capacity = C := hseen .capacity (by simp)
        have hlt : seen .tail - seen .head < seen .capacity := by simpa using hr
        rw [hcap, UInt64.lt_iff_toNat_lt, Word.toNat_sub_of_le (by omega), htail] at hlt
        omega

/-- `Full` at an access. -/
theorem Inv.full_step (hi : Inv C w) {pc : FullPc} (hpr : w.producer = .checking pc)
    {mem : History (Marked (Val α parts))} {next : FullPc ⊕ Bool} {raced : Bool}
    (hp : performIn plain (fullOrder pc) t w.mem w.producerView (full pc) =
      some (mem, view, next, raced)) :
    Inv C { w with
      mem := mem
      producerView := view
      producer := .afterFull next
      room := w.room || next.elim (fun _ => false) (fun isFull => !isFull)
      raced := w.raced || raced } := by
  have hseen : ProducerInv C w.accepted.length w.popped.length w.producerView
      (.checking pc : Producer α parts) := hpr ▸ hi.producer
  have hmono : ∀ {view}, w.producerView.Le view →
      ∀ o, o ∉ pc.next :: pc.rest → Operand.Loaded C w.accepted.length view (pc.seen o) o :=
    fun hv o ho => ProducerInv.mono hseen le_rfl hv o ho
  obtain ⟨o, rest, seen⟩ := pc
  cases o with
  | tail =>
      obtain ⟨m, hm, hle, rfl, rfl, rfl, rfl⟩ := WeakMemory.performIn_load rfl hp
      have hv := w.producerView.le_see (fullOrder ⟨.tail, rest, seen⟩) (.inl .tail) t m.view
      rw [Bool.or_false]
      exact hi.full_next hv (by rw [hpr]; rfl) (by rw [hpr]; rfl)
        (Operand.loaded_update (hmono hv) (hi.tail_value hm hle))
  | head =>
      obtain ⟨m, hm, hle, rfl, rfl, rfl, rfl⟩ := WeakMemory.performIn_load rfl hp
      have hv := w.producerView.le_see (fullOrder ⟨.head, rest, seen⟩) (.inl .head) t m.view
      obtain ⟨hval, ht⟩ := hi.head_value hm
      rw [Bool.or_false]
      refine hi.full_next hv (by rw [hpr]; rfl) (by rw [hpr]; rfl)
        (Operand.loaded_update (hmono hv) ⟨?_, ?_⟩)
      · exact hval.trans_le (ht.trans hi.fifo.length_le)
      · exact hval.trans_le (ThreadView.le_see_self _ _ _ _ _)
  | capacity =>
      obtain ⟨m, hm, hle, rfl, rfl, rfl, rfl⟩ := WeakMemory.performIn_load rfl hp
      have hv := w.producerView.le_see (fullOrder ⟨.capacity, rest, seen⟩) (.inl .capacity) t m.view
      rw [Bool.or_false]
      exact hi.full_next hv (by rw [hpr]; rfl) (by rw [hpr]; rfl)
        (Operand.loaded_update (hmono hv) (hi.written _ _ _ hm))

/-! ### The consumer's steps

The mirror image: the tail that the consumer has loaded carries the pieces of the cell, and
as long as it reads them the producer's next visit to the cell is a lap away. The head is
stored behind the last piece, which is what frees the cell. -/

/-- The consumer has only looked. If its access was a load, its view may have grown. -/
theorem Inv.listens (hi : Inv C w) (c : Consumer α parts) (hv : w.consumerView.Le view)
    (hread : c.read = w.consumer.read)
    (hc : ConsumerInv C w.accepted w.popped.length view c) :
    Inv C { w with consumer := c, consumerView := view } where
  __ := hi
  mark_length := fun j i => by rw [hread]; exact hi.mark_length j i
  knowsHead := hi.knowsHead.mono rfl hv
  knowsMarks := fun j i => (hi.knowsMarks j i).mono rfl hv
  heard := hi.heard.trans (hv.cur _)
  consumer := hc

/-- What the consumer loads of its own head. -/
theorem Inv.own_head_value (hi : Inv C w) {o : Order}
    {m : Message (Place (Loc parts)) UInt64} (hm : (w.mem (.inl .head))[t]? = some m)
    (hle : w.consumerView.start o (.inl .head) ≤ t) : m.value.toNat = w.popped.length := by
  have hlast := hi.knowsHead.getLast hm hle
  rw [List.getLast?_eq_getElem?, hi.head_length, Nat.add_sub_cancel] at hlast
  exact (hi.written _ _ _ hlast).1

/-- What the consumer loads of the tail. It may be an old one, and then the queue looks
emptier than it is. -/
theorem Inv.other_tail_value (hi : Inv C w) {m : Message (Place (Loc parts)) UInt64}
    (hm : (w.mem (.inl .tail))[t]? = some m) : m.value.toNat = t ∧ t ≤ w.accepted.length := by
  have hlt := (List.getElem?_eq_some_iff.mp hm).1
  rw [hi.tail_length] at hlt
  exact ⟨(hi.written _ _ _ hm).1, by omega⟩

/-- `TryPop` at its load of the tail. Either there is a value, and then it knows the cell to
be full, or the pop finds nothing. -/
theorem Inv.pop_tail (hi : Inv C w) {out : Elem α parts} {head : UInt64} {log : PopLog}
    (hc : w.consumer = .popping (.loadTail out C head) log)
    {m : Message (Place (Loc parts)) UInt64} (hm : (w.mem (.inl .tail))[t]? = some m)
    (hle : w.consumerView.cur (.inl .tail) ≤ t) :
    Inv C { w with
      consumerView := w.consumerView.see .acquiring (.inl .tail) t m.view
      consumer := .afterPop { log with tail := t }
        (if head = m.value then .inr (false, out) else .inl (.copy out C head 0)) } := by
  have hcons := hi.consumer
  rw [hc] at hcons
  obtain ⟨⟨-, hhead⟩, hfloor⟩ := hcons
  obtain ⟨hval, ht⟩ := hi.other_tail_value hm
  have hview := (hi.written _ _ _ hm).2
  have hheard := hi.heard
  have hv := w.consumerView.le_see .acquiring (.inl .tail) t m.view
  by_cases hempty : head = m.value
  · rw [if_pos hempty]
    refine hi.listens _ hv (by rw [hc]; rfl) (fun _ => ⟨hfloor.trans hle, ?_⟩)
    rw [← hhead, hempty]
    exact hval.symm
  · have hlt : w.popped.length < t := by
      have hne : w.popped.length ≠ t := by
        intro heq
        exact hempty (UInt64.toNat_inj.mp (by rw [hhead, heq]; exact hval.symm))
      omega
    rw [if_neg hempty]
    have hcur : t ≤ _ := w.consumerView.le_see_self .acquiring (.inl .tail) t m.view
    refine hi.listens _ hv (by rw [hc]; rfl) ⟨⟨rfl, hhead, hlt.trans_le hcur, ?_, ?_⟩, ?_⟩
    · intro i
      exact (hview _ hlt i).trans (ThreadView.view_le_see rfl _)
    · exact ⟨_, List.getElem?_eq_getElem (hlt.trans_le ht), by simp⟩
    · exact (hfloor.trans hle).trans hcur

/-- `TryPop` at a piece of the cell: the producer is not at the cell, so the read races with
nothing. -/
theorem Inv.unwritten (hi : Inv C w) {out : Elem α parts} {head : UInt64} {k : Nat} {log : PopLog}
    (hc : w.consumer = .popping (.copy out C head k) log) (i : Fin parts) :
    (w.mem (.inl (.cell (w.popped.length % C.toNat) i))).length =
      w.popped.length / C.toNat + 2 := by
  have hcons := hi.consumer
  rw [hc] at hcons
  obtain ⟨⟨-, -, -, -, v, hget, -⟩, -⟩ := hcons
  have hlt := (List.getElem?_eq_some_iff.mp hget).1
  have hbound := hi.bounded
  have hnone : underWay C.toNat w.accepted.length w.producer.written
      (w.popped.length % C.toNat) i = 0 := by
    rw [underWay, if_neg]
    rintro ⟨hmod, hwr⟩
    -- the producer has seen the head, which is not beyond the position that is read
    have hroom : w.accepted.length < w.popped.length + C.toNat := by
      have hprod := hi.producer
      cases hpr : w.producer with
      | pushing v pc log =>
          rw [hpr] at hprod hwr
          cases pc with
          | copy c tail k => exact hprod.1.2.2.1
          | _ => simp [Producer.written] at hwr
      | _ => simp [hpr, Producer.written] at hwr
    exact Word.mod_ne_of_lt_add hlt hroom hmod
  have hge := Laps.lap_lt_laps hi.pos hlt
  have hle := Laps.laps_mono (N := C.toNat) hbound (w.popped.length % C.toNat)
  have hself := Laps.laps_self hi.pos (w.popped.length + C.toNat)
  rw [Nat.add_mod_right, Nat.add_div_right _ hi.pos] at hself
  rw [hi.cell_length, hnone]
  omega

/-- What `TryPop` finds in a piece of the cell. It is the newest write, because the view
knows of it and the producer is elsewhere. -/
theorem Inv.cell_value (hi : Inv C w) {out : Elem α parts} {head : UInt64} {k : Nat} {log : PopLog}
    (hc : w.consumer = .popping (.copy out C head k) log) {i : Fin parts} {j : Nat}
    (hj : j = w.popped.length % C.toNat) {m : Message (Place (Loc parts)) α}
    (hm : (w.mem (.inl (.cell j i))).getLast? = some m) {v : Elem α parts}
    (hv : w.accepted[w.popped.length]? = some v) : m.value = v i := by
  subst hj
  rw [List.getLast?_eq_getElem?, hi.unwritten hc] at hm
  obtain ⟨v', hget, hval⟩ := hi.written _ _ _ hm _ rfl
  rw [Nat.mod_add_div'] at hget
  have hvs : w.accepted <+: begun w.accepted w.producer := by
    unfold begun
    split
    · exact List.prefix_append _ _
    · exact List.prefix_refl _
  rw [Word.getElem?_of_prefix hvs hv] at hget
  rw [hval, Option.some.inj hget]

/-- `TryPop` has read a piece of the cell. It is the piece of the value at the front, since
no newer write is at the cell. -/
theorem Inv.pop_cell (hi : Inv C w) {out : Elem α parts} {head : UInt64} {i : Fin parts}
    {log : PopLog} (hc : w.consumer = .popping (.copy out C head i.val) log) {j : Nat}
    (hj : j = w.popped.length % C.toNat) {m : Message (Place (Loc parts)) α}
    (hm : (w.mem (.inl (.cell j i))).getLast? = some m) {x : WeakMemory.View (Place (Loc parts))} :
    Inv C { w with
      mem := Function.update w.mem (.inr (.cell j i)) (w.mem (.inr (.cell j i)) ++ [⟨PUnit.unit, x⟩])
      consumerView :=
        w.consumerView.see .relaxed (.inr (.cell j i)) (w.mem (.inr (.cell j i))).length ⊥
      consumer :=
        .popping (.copy (Function.update out i m.value) C head (i.val + 1)) log } := by
  have hv := w.consumerView.le_see .relaxed (.inr (.cell j i))
    (w.mem (.inr (.cell j i))).length ⊥
  have hcons := hi.consumer
  have hmark := hi.mark_length
  rw [hc] at hcons hmark
  obtain ⟨⟨-, hhead, hlt, hcell, v, hget, hout⟩, hfloor⟩ := hcons
  have hval := hi.cell_value hc hj hm hget
  refine { hi with
    written := WeakMemory.History.forall_append hi.written trivial
    tail_length := ?_, head_length := ?_, cell_length := ?_, mark_length := ?_
    knowsTail := hi.knowsTail.append_of_ne (by simp) _
    knowsCells := fun j' i' => (hi.knowsCells j' i').append_of_ne (by simp) _
    knowsHead := hi.knowsHead.store _ _ _ _, knowsMarks := fun j i => (hi.knowsMarks j i).store _ _ _ _
    heard := hi.heard.trans (hv.cur _)
    consumer := ⟨⟨rfl, hhead, hlt.trans_le (hv.cur _), fun i' => (hcell i').trans (hv.cur _), v, hget, ?_⟩,
      hfloor.trans (hv.cur _)⟩ }
  · rw [WeakMemory.History.length_append_of_ne (by simp)]
    exact hi.tail_length
  · rw [WeakMemory.History.length_append_of_ne (by simp)]
    exact hi.head_length
  · intro j' i'
    rw [WeakMemory.History.length_append_of_ne (by simp)]
    exact hi.cell_length j' i'
  · intro j' i'
    rw [WeakMemory.History.length_append, hmark]
    simp only [Consumer.read, underWay_succ, Sum.inr.injEq, Loc.cell.injEq, Fin.ext_iff, hj]
    omega
  · intro i' hi'
    by_cases hii : i' = i
    · subst hii
      rw [Function.update_self, hval]
    · rw [Function.update_of_ne hii]
      exact hout i' (by have := fun h => hii (Fin.ext h); omega)

theorem prefix_concat {popped accepted : List (Elem α parts)} {v : Elem α parts}
    (h : popped <+: accepted) (hv : accepted[popped.length]? = some v) :
    popped ++ [v] <+: accepted := by
  obtain ⟨rest, rfl⟩ := h
  rw [List.getElem?_append_right le_rfl, Nat.sub_self] at hv
  cases rest with
  | nil => cases hv
  | cons u rest =>
      obtain rfl := Option.some.inj hv
      exact ⟨rest, List.append_assoc _ _ _⟩

/-- `TryPop` stores the head. It is the step at which the value is popped, and it gives the
cell back to the producer. -/
theorem Inv.pop_head (hi : Inv C w) {out : Elem α parts} {head : UInt64} {k : Nat} {log : PopLog}
    (hc : w.consumer = .popping (.copy out C head k) log) (hk : parts ≤ k)
    (hlen : w.accepted.length < 2 ^ 64) :
    Inv C { w with
      mem := Function.update w.mem (.inl .head) (w.mem (.inl .head) ++
        [⟨head + 1, w.consumerView.released .releasing (.inl .head) (w.mem (.inl .head)).length⟩])
      consumerView :=
        w.consumerView.see .releasing (.inl .head) (w.mem (.inl .head)).length ⊥
      consumer := .popped log true out
      popped := w.popped ++ [out] } := by
  have hv := w.consumerView.le_see .releasing (.inl .head) (w.mem (.inl .head)).length ⊥
  have hcons := hi.consumer
  have hmark := hi.mark_length
  rw [hc] at hcons hmark
  simp only [Consumer.read] at hmark
  obtain ⟨⟨-, hhead, hlt, -, v, hget, hout⟩, -⟩ := hcons
  have hall (i : Fin parts) : i.val < k := i.isLt.trans_le hk
  obtain rfl : out = v := funext fun i => hout i (hall i)
  have hpos := (List.getElem?_eq_some_iff.mp hget).1
  have hnext : (head + 1).toNat = w.popped.length + 1 := by
    rw [Word.toNat_add_of_lt (by rw [hhead]; simp; omega), hhead]
    rfl
  have hgood : Good C (begun w.accepted w.producer) (.inl .head) (w.mem (.inl .head)).length
      ⟨head + 1, w.consumerView.released .releasing (.inl .head) (w.mem (.inl .head)).length⟩ := by
    rw [hi.head_length]
    refine ⟨hnext, ?_⟩
    intro p hp i
    refine le_trans ?_ (ThreadView.cur_le_released rfl _)
    have hknows := hi.knowsMarks (p % C.toNat) i
    unfold UpToDate at hknows
    rw [hmark, laps_add_underWay (hall i)] at hknows
    have hlap := Laps.lap_lt_laps hi.pos hp
    omega
  refine { hi with
    written := WeakMemory.History.forall_append hi.written hgood
    tail_length := ?_, head_length := ?_, cell_length := ?_, mark_length := ?_
    knowsTail := hi.knowsTail.append_of_ne (by simp) _
    knowsCells := fun j' i' => (hi.knowsCells j' i').append_of_ne (by simp) _
    knowsHead := hi.knowsHead.store _ _ _ _, knowsMarks := fun j i => (hi.knowsMarks j i).store _ _ _ _
    fifo := ?_
    bounded := ?_
    heard := ?_
    producer := ?_
    consumer := by simp [ConsumerInv] }
  · rw [WeakMemory.History.length_append_of_ne (by simp)]
    exact hi.tail_length
  · rw [WeakMemory.History.length_append, if_pos rfl, hi.head_length, List.length_append]
    rfl
  · intro j i
    rw [WeakMemory.History.length_append_of_ne (by simp)]
    exact hi.cell_length j i
  · intro j i
    rw [WeakMemory.History.length_append_of_ne (by simp), hmark, laps_add_underWay (hall i)]
    simp [Consumer.read, underWay_zero]
  · exact prefix_concat hi.fifo hget
  · have := hi.bounded
    rw [List.length_append, List.length_singleton]
    dsimp only
    omega
  · rw [List.length_append, List.length_singleton]
    exact hlt.trans_le (hv.cur _)
  · rw [List.length_append]
    exact hi.producer.mono (Nat.le_add_right _ _) (.refl _)

/-- `TryPop` at an access. -/
theorem Inv.pop_step (hi : Inv C w) {pc : PopPc α parts} {log : PopLog}
    (hc : w.consumer = .popping pc log) {mem : History (Marked (Val α parts))}
    {next : PopPc α parts ⊕ (Bool × Elem α parts)} {raced : Bool}
    (hp : performIn plain (popOrder pc) t w.mem w.consumerView (tryPop pc) =
      some (mem, view, next, raced)) (hlen : w.accepted.length < 2 ^ 64) :
    Inv C { w with
      mem := mem
      consumerView := view
      consumer := .afterPop (log.note t pc) next
      popped := take w.popped next
      raced := w.raced || raced } := by
  have hcons := hi.consumer
  rw [hc] at hcons
  obtain ⟨hpc, hfloor⟩ := hcons
  cases pc with
  | loadCapacity out =>
      obtain ⟨m, hm, -, rfl, rfl, rfl, rfl⟩ := WeakMemory.performIn_load rfl hp
      have hv := w.consumerView.le_see (popOrder (.loadCapacity out)) (.inl .capacity) t m.view
      rw [Bool.or_false]
      exact hi.listens _ hv (by rw [hc]; rfl) ⟨hi.written _ _ _ hm, hfloor.trans (hv.cur _)⟩
  | loadHead out c =>
      obtain ⟨m, hm, hle, rfl, rfl, rfl, rfl⟩ := WeakMemory.performIn_load rfl hp
      have hv := w.consumerView.le_see (popOrder (.loadHead out c)) (.inl .head) t m.view
      rw [Bool.or_false]
      exact hi.listens _ hv (by rw [hc]; rfl)
        ⟨⟨hpc, hi.own_head_value hm hle⟩, hfloor.trans (hv.cur _)⟩
  | loadTail out c head =>
      obtain ⟨m, hm, hle, rfl, rfl, rfl, rfl⟩ := WeakMemory.performIn_load rfl hp
      obtain ⟨rfl, -⟩ := hpc
      have hstep := hi.pop_tail hc hm ((w.consumerView.cur_le_start _ _).trans hle)
      rw [Bool.or_false, take_ite]
      exact hstep
  | copy out c head k =>
      obtain ⟨rfl, hhead, -, hcell, -⟩ := hpc
      have hmod : (head % c).toNat = w.popped.length % c.toNat := by
        rw [UInt64.toNat_mod, hhead]
      by_cases hk : k < parts
      · simp only [tryPop, dif_pos hk] at hp
        have hup : UpToDate w.mem w.consumerView (.inl (.cell (head % c).toNat ⟨k, hk⟩)) := by
          unfold UpToDate
          rw [hmod, hi.unwritten hc]
          exact Nat.succ_le_succ (hcell ⟨k, hk⟩)
        obtain ⟨m, hm, rfl, rfl, rfl, rfl⟩ := WeakMemory.performIn_read rfl hup hp
        rw [Bool.or_false]
        exact hi.pop_cell (i := ⟨k, hk⟩) hc hmod hm
      · simp only [tryPop, dif_neg hk] at hp
        obtain ⟨rfl, rfl, rfl, rfl⟩ := WeakMemory.performIn_store rfl hp
        rw [Bool.or_false]
        exact hi.pop_head hc (by omega) hlen

/-- `Size` of the consumer at its load of the tail: the tail is not behind what was popped. -/
theorem Inv.size_tail (hi : Inv C w) {head : UInt64} {log : PopLog}
    (hc : w.consumer = .sizing (.loadTail head) log)
    {m : Message (Place (Loc parts)) UInt64} (hm : (w.mem (.inl .tail))[t]? = some m)
    (hle : w.consumerView.cur (.inl .tail) ≤ t) (hv : w.consumerView.Le view) :
    Inv C { w with
      consumerView := view
      consumer := .sized { log with tail := t } (if m.value ≥ head then m.value - head else 0) } := by
  have hcons := hi.consumer
  rw [hc] at hcons
  obtain ⟨hhead, hfloor⟩ := hcons
  obtain ⟨hval, ht⟩ := hi.other_tail_value hm
  have hheard := hi.heard
  have hge : head.toNat ≤ m.value.toNat := by omega
  rw [if_pos (UInt64.le_iff_toNat_le.mpr hge)]
  refine hi.listens _ hv (by rw [hc]; rfl) ⟨hfloor.trans hle, ?_, ht⟩
  rw [Word.toNat_sub_of_le hge]
  dsimp only
  omega

/-- `Size` at an access. -/
theorem Inv.size_step (hi : Inv C w) {pc : SizePc} {log : PopLog} (hc : w.consumer = .sizing pc log)
    {mem : History (Marked (Val α parts))} {next : SizePc ⊕ UInt64} {raced : Bool}
    (hp : performIn plain (sizeOrder pc) t w.mem w.consumerView (size pc) =
      some (mem, view, next, raced)) :
    Inv C { w with
      mem := mem
      consumerView := view
      consumer := .afterSize (log.noteSize t pc) next
      raced := w.raced || raced } := by
  cases pc with
  | loadHead =>
      have hcons := hi.consumer
      rw [hc] at hcons
      obtain ⟨m, hm, hle, rfl, rfl, rfl, rfl⟩ := WeakMemory.performIn_load rfl hp
      have hv := w.consumerView.le_see (sizeOrder .loadHead) (.inl .head) t m.view
      rw [Bool.or_false]
      exact hi.listens _ hv (by rw [hc]; rfl) ⟨hi.own_head_value hm hle, le_trans hcons (hv.cur _)⟩
  | loadTail head =>
      obtain ⟨m, hm, hle, rfl, rfl, rfl, rfl⟩ := WeakMemory.performIn_load rfl hp
      rw [Bool.or_false]
      exact hi.size_tail hc hm ((w.consumerView.cur_le_start _ _).trans hle)
        (ThreadView.le_see _ _ _ _ _)

/-! ### Whole runs

Steps of the two threads and synchronizations between them. The indices are 64-bit words
that count every value ever accepted, so what is shown holds of runs with fewer than
`2 ^ 64` of them. -/

theorem Producer.between {pr : Producer α parts} (h : ¬ pr.inCall = true)
    (accepted : List (Elem α parts)) : begun accepted pr = accepted ∧ pr.written = 0 := by
  cases pr with
  | pushing | checking => exact absurd rfl h
  | _ => exact ⟨rfl, rfl⟩

theorem Consumer.between {c : Consumer α parts} (h : ¬ c.inCall = true) : c.read = 0 := by
  cases c with
  | popping | sizing => exact absurd rfl h
  | _ => rfl

/-- Hearing more does no harm: what is known of a thread bounds its view from below. -/
theorem Inv.hear (hi : Inv C w) (x : WeakMemory.View (Place (Loc parts))) : Inv C (w.hear x) :=
  hi.listens _ (ThreadView.le_join _ _) rfl
    (hi.consumer.mono (List.prefix_refl _) (ThreadView.le_join _ _))

/-- **A step of the system keeps the invariant.** -/
theorem Inv.step (hi : Inv C w) {l : Label α parts} (h : w.step l = some w')
    (hlen : w'.accepted.length < 2 ^ 64) : Inv C w' := by
  cases l with
  | callPush v =>
      simp only [World.step] at h
      split_ifs at h with hin
      obtain rfl := Option.some.inj h
      obtain ⟨hbegun, hwr⟩ := Producer.between hin w.accepted
      exact hi.looks _ (.refl _) (by rw [hbegun]; exact List.prefix_refl _) hwr.symm
        ⟨trivial, le_rfl, hi.room⟩ (by simp) (fun _ _ _ _ => rfl)
  | callFull next rest =>
      simp only [World.step] at h
      split_ifs at h with hin
      obtain rfl := Option.some.inj h
      obtain ⟨hin, hperm⟩ := not_or.mp hin
      obtain ⟨hbegun, hwr⟩ := Producer.between hin w.accepted
      refine hi.looks _ (.refl _) (by rw [hbegun]; exact List.prefix_refl _) hwr.symm ?_ hi.room
        (by simp)
      -- nothing is loaded yet
      intro o ho
      exact absurd ((not_not.mp hperm).mem_iff.mpr (by cases o <;> simp)) ho
  | produce t =>
      cases hpr : w.producer with
      | pushing v pc log =>
          simp only [World.step, hpr] at h
          obtain ⟨⟨mem, view, next, raced⟩, hp, rfl⟩ := Option.map_eq_some_iff.mp h
          exact hi.push_step hpr hp hlen
      | checking pc =>
          simp only [World.step, hpr] at h
          obtain ⟨⟨mem, view, next, raced⟩, hp, rfl⟩ := Option.map_eq_some_iff.mp h
          exact hi.full_step hpr hp
      | _ => simp [World.step, hpr] at h
  | callPop out =>
      simp only [World.step] at h
      split_ifs at h with hin
      obtain rfl := Option.some.inj h
      exact hi.listens _ (.refl _) (Consumer.between hin).symm ⟨trivial, le_rfl⟩
  | callSize =>
      simp only [World.step] at h
      split_ifs at h with hin
      obtain rfl := Option.some.inj h
      exact hi.listens _ (.refl _) (Consumer.between hin).symm le_rfl
  | consume t =>
      cases hc : w.consumer with
      | popping pc log =>
          simp only [World.step, hc] at h
          obtain ⟨⟨mem, view, next, raced⟩, hp, rfl⟩ := Option.map_eq_some_iff.mp h
          exact hi.pop_step hc hp hlen
      | sizing pc log =>
          simp only [World.step, hc] at h
          obtain ⟨⟨mem, view, next, raced⟩, hp, rfl⟩ := Option.map_eq_some_iff.mp h
          exact hi.size_step hc hp
      | _ => simp [World.step, hc] at h
  | tellConsumer =>
      simp only [World.step] at h
      split_ifs at h
      obtain rfl := Option.some.inj h
      exact hi.hear _
  | tellProducer =>
      simp only [World.step] at h
      split_ifs at h
      obtain rfl := Option.some.inj h
      have hv := ThreadView.le_join w.producerView w.consumerView.cur
      exact hi.looks _ hv (List.prefix_refl _) rfl (hi.producer.mono le_rfl hv)
        (fun hr => (hi.room hr).trans_le (Nat.add_le_add_right (hv.cur _) _)) hi.called

theorem Inv.init (depth : UInt32) (junk : Nat → Elem α parts) :
    Inv (effectiveDepth depth).toUInt64 (World.init depth junk) where
  pos := by
    rw [UInt32.toNat_toUInt64]
    exact SpscQueue.effectiveDepth_pos depth
  written := by
    intro l t m hm
    obtain rfl : t = 0 := by
      have hlt := (List.getElem?_eq_some_iff.mp hm).1
      rcases l with l | l <;> simpa [World.init, History.unread] using hlt
    rcases l with (_ | _ | _ | ⟨j, i⟩) | l
    all_goals obtain rfl := Option.some.inj hm
    · rfl
    · exact ⟨rfl, by simp⟩
    · exact ⟨rfl, by simp⟩
    · intro k hk
      cases hk
    · trivial
  tail_length := rfl
  head_length := rfl
  cell_length := fun j i => by simp [World.init, History.unread, Producer.written, underWay_zero]
  mark_length := fun j i => by simp [World.init, History.unread, Consumer.read, underWay_zero]
  knowsTail := le_rfl
  knowsCells := fun _ _ => le_rfl
  knowsHead := le_rfl
  knowsMarks := fun _ _ => le_rfl
  fifo := List.prefix_refl _
  bounded := Nat.zero_le _
  known := Nat.zero_le _
  heard := Nat.zero_le _
  producer := trivial
  consumer := trivial
  room := by simp [World.init]
  called := by simp [World.init]
  unraced := rfl

theorem prefix_accept (v : Elem α parts) (accepted : List (Elem α parts)) (next : PushPc ⊕ Bool) :
    accepted <+: accept v accepted next := by
  unfold accept
  split
  · exact List.prefix_append _ _
  · exact List.prefix_refl _

theorem World.step_accepted {l : Label α parts} (h : w.step l = some w') :
    w.accepted.length ≤ w'.accepted.length := by
  cases l with
  | produce t =>
      cases hpr : w.producer with
      | pushing v pc log =>
          simp only [World.step, hpr] at h
          obtain ⟨⟨mem, view, next, raced⟩, hp, rfl⟩ := Option.map_eq_some_iff.mp h
          exact (prefix_accept v w.accepted next).length_le
      | checking pc =>
          simp only [World.step, hpr] at h
          obtain ⟨⟨mem, view, next, raced⟩, hp, rfl⟩ := Option.map_eq_some_iff.mp h
          exact le_rfl
      | _ => simp [World.step, hpr] at h
  | consume t =>
      cases hc : w.consumer with
      | popping pc log | sizing pc log =>
          simp only [World.step, hc] at h
          obtain ⟨⟨mem, view, next, raced⟩, hp, rfl⟩ := Option.map_eq_some_iff.mp h
          exact le_rfl
      | _ => simp [World.step, hc] at h
  | _ =>
      simp only [World.step] at h
      split_ifs at h
      obtain rfl := Option.some.inj h
      exact le_rfl

/-- **The invariant holds in every run**, as long as the tail fits its word. -/
theorem World.run_inv {depth : UInt32} {junk : Nat → Elem α parts} {ls : List (Label α parts)}
    (h : World.run depth junk ls = some w) (hlen : w.accepted.length < 2 ^ 64) :
    Inv (effectiveDepth depth).toUInt64 w :=
  Run.exec_invariant
    (I := fun w => w.accepted.length < 2 ^ 64 → Inv (effectiveDepth depth).toUInt64 w)
    (fun hi hstep hlen => (hi ((World.step_accepted hstep).trans_lt hlen)).step hstep hlen)
    (fun _ => .init depth junk) h hlen

/-! ### The results

Read off the invariant. With a stale index a push can be refused on a queue that has room,
and a pop on one that is not empty; so the second theorem says how stale: never older than
what the thread knew when it made the call. -/

/-- **The plain cells never race, and the queue is a bounded queue**, with the memory orders
of the source. Without races what is read from a cell is what was last written there, so
popped values are accepted ones, in order; and never more than `capacity` of them are
waiting. -/
theorem fifo_without_race {depth : UInt32} {junk : Nat → Elem α parts} {ls : List (Label α parts)}
    (hrun : World.run depth junk ls = some w) (hlen : w.accepted.length < 2 ^ 64) :
    w.raced = false ∧ w.popped <+: w.accepted ∧
      w.accepted.length ≤ w.popped.length + (effectiveDepth depth).toNat := by
  have hi := World.run_inv hrun hlen
  refine ⟨hi.unraced, hi.fifo, ?_⟩
  rw [← UInt32.toNat_toUInt64]
  exact hi.bounded

/-- What the last call of the producer has returned. A push is refused only if the head it
loaded, which is not older than what its thread knew, leaves no room; a `Full()` that
returned false is a promise. -/
def Producer.Answered (capacity accepted : Nat) : Producer α parts → Prop
  | .pushed _ log ok => (ok = false → log.floor ≤ log.head ∧ log.head + capacity = accepted) ∧
      (log.room = true → ok = true)
  | _ => True

/-- What the last call of the consumer has returned. It finds the queue empty only if it has
popped everything its thread knew of, and `Size()` counts all that its thread knew of and
nothing that is not there. -/
def Consumer.Answered (accepted popped : Nat) : Consumer α parts → Prop
  | .popped log false _ => log.floor ≤ popped
  | .sized log n => log.floor ≤ popped + n.toNat ∧ popped + n.toNat ≤ accepted
  | _ => True

/-- **The two verbs are as fresh as what their threads know.** A stale index can only make a
verb more careful: a push is refused, or a pop finds nothing, by what its thread loaded, and
that is never older than what it knew when it made the call. -/
theorem answers_fresh {depth : UInt32} {junk : Nat → Elem α parts} {ls : List (Label α parts)}
    (hrun : World.run depth junk ls = some w) (hlen : w.accepted.length < 2 ^ 64) :
    w.producer.Answered (effectiveDepth depth).toNat w.accepted.length ∧
      w.consumer.Answered w.accepted.length w.popped.length := by
  have hi := World.run_inv hrun hlen
  have hprod := hi.producer
  have hcons := hi.consumer
  constructor
  · cases hpr : w.producer with
    | pushed v log ok =>
        rw [hpr] at hprod
        rw [← UInt32.toNat_toUInt64]
        exact hprod
    | _ => trivial
  · cases hc : w.consumer with
    | popped log ok out =>
        rw [hc] at hcons
        cases ok with
        | false => exact (hcons rfl).1.trans (hcons rfl).2.le
        | true => trivial
    | sized log n =>
        rw [hc] at hcons
        obtain ⟨hfloor, heq, hle⟩ := hcons
        exact ⟨heq ▸ hfloor, heq ▸ hle⟩
    | _ => trivial

/-- Depth one. The value is popped, but the producer loads a head that is older and is
refused. It hears of the pop, `Full()` returns false, and the next push is accepted. -/
def staleHead : List (Label Nat 2) :=
  [.callPush ![1, 2], .produce 0, .produce 0, .produce 0, .produce 0, .produce 0, .produce 0,
   .callPop ![0, 0], .consume 0, .consume 0, .consume 1, .consume 0, .consume 0, .consume 0,
   .callPush ![3, 4], .produce 0, .produce 1, .produce 0,
   .tellProducer, .callFull .head [.tail, .capacity], .produce 1, .produce 1, .produce 0,
   .callPush ![3, 4], .produce 0, .produce 1, .produce 1, .produce 0, .produce 0, .produce 0]

theorem fifo_without_race_staleHead : ∃ w : World Nat 2,
    World.run 1 (fun _ => ![0, 0]) staleHead = some w ∧ w.accepted = [![1, 2], ![3, 4]] ∧
    w.popped = [![1, 2]] ∧ w.raced = false := by
  have hex : ∃ w : World Nat 2, World.run 1 (fun _ => ![0, 0]) staleHead = some w ∧
      w.accepted = [![1, 2], ![3, 4]] ∧ w.popped = [![1, 2]] := Run.exists_exec (by decide +kernel)
  obtain ⟨w, hrun, hacc, hpop⟩ := hex
  exact ⟨w, hrun, hacc, hpop, (fifo_without_race hrun (by rw [hacc]; decide)).1⟩

/-- The answer of the producer's last `TryPush`. -/
def Producer.ok? : Producer α parts → Option Bool
  | .pushed _ _ ok => some ok
  | _ => none

theorem answers_fresh_staleHead : ∃ w : World Nat 2,
    World.run 1 (fun _ => ![0, 0]) (staleHead.take 18) = some w ∧ w.producer.ok? = some false ∧
    w.accepted.length = 1 ∧ w.popped.length = 1 ∧ w.producer.Answered 1 1 := by
  have hex : ∃ w : World Nat 2, World.run 1 (fun _ => ![0, 0]) (staleHead.take 18) = some w ∧
      w.producer.ok? = some false ∧ w.accepted.length = 1 ∧ w.popped.length = 1 :=
    Run.exists_exec (by decide +kernel)
  obtain ⟨w, hrun, hok, hacc, hpop⟩ := hex
  have hans := (answers_fresh hrun (by rw [hacc]; decide)).1
  rw [hacc] at hans
  exact ⟨w, hrun, hok, hacc, hpop, hans⟩

end XmBase.Concurrency.WeakQueue
