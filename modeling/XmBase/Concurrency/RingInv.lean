import XmBase.Concurrency.RingSystem
import XmBase.Lib.Word
/-!
# XmBase.Concurrency.RingInv

**What is true of the ring at every access boundary**, killed and repaired
writers included.

Let `n` be the number of completed stores. The cell `n % N` is the one the
writer may be touching; call it the in-flight cell. The invariant `Inv` says

* outside the in-flight cell (`Outside`): the cursor is `n`, every published
  position less than a lap old sits whole in its cell, and all sequences are even;
* everywhere (`SoundAt`): a cell whose sequence is even and non-zero and whose
  index is a published position holds that position's value. This is all a
  reader's validation needs, and it survives every kill: a store cut between
  (W2) and (W3) leaves an index that is not published;
* at the in-flight cell (`Phase`): what the writer's program counter has done.

Sequences are bounded by twice the stores begun, so they do not wrap as long as
fewer than `2 ^ 63` stores are made.
-/

namespace XmBase.Concurrency.SeqlockRing

open Bytes (toWords ofWords)

variable {N size : Nat} [NeZero N] {ι : Type} [DecidableEq ι]

/-! ### Positions and cells

Position `p` lives in cell `p % N`. Of the `N` positions from some `n` on each has a cell of
its own, which is why a store that goes to position `n` leaves the `N - 1` before it alone. -/

theorem cellOf_eq_iff {p q : Nat} : (cellOf p : Fin N) = cellOf q ↔ p % N = q % N := by
  simp [cellOf, Fin.ext_iff]

theorem cellOf_add_depth (p : Nat) : (cellOf (p + N) : Fin N) = cellOf p := by
  simp [cellOf_eq_iff]

theorem cellOf_ne {p q : Nat} (h1 : p < q) (h2 : q < p + N) : (cellOf p : Fin N) ≠ cellOf q :=
  fun h => Word.mod_ne_of_lt_add h1 h2 (cellOf_eq_iff.mp h)

/-- The cell a location belongs to; the cursor belongs to none. -/
def Loc.cell? : Loc N size → Option (Fin N)
  | .seq n | .index n | .words n _ => some n
  | .writeCount => none

/-! ### The invariant

It says what a writer may find when it starts and what a reader may rely on when it
validates, and it is all that the later modules know about the writing side. Every clause is
needed at once: the store in flight keeps the cells outside alone because they are in other
cells (`Outside`), it may leave anything in its own because no index there is published
(`SoundAt`), and what it finishes with has to be what the next position needs (`Phase`). -/

/-- Cell `j` holds position `q` with value `v`, whole. It is what a `Load` of that position
would find from its first access to its last. -/
structure Holds (m : Mem N size) (j : Fin N) (q : Nat) (v : Payload size) : Prop where
  seq_ne : m (.seq j) ≠ 0
  seq_even : (m (.seq j)).toNat % 2 = 0
  index : (m (.index j)).toNat = q
  words : ∀ i : Fin (kWords size), m (.words j i) = toWords v i

/-- Facts about the memory outside the in-flight cell. These are the cells that a killed
writer cannot have damaged. -/
structure Outside (m : Mem N size) (p : List (Payload size)) : Prop where
  count : (m .writeCount).toNat = p.length
  held : ∀ {q v}, p[q]? = some v → p.length < q + N → Holds m (cellOf q) q v
  even : ∀ {j}, j ≠ cellOf p.length → (m (.seq j)).toNat % 2 = 0

/-- What a validated cell `j` can be trusted for. The second part is empty for an index that
is not published, so a cell that a killed writer has closed but not published is sound too. -/
def SoundAt (m : Mem N size) (p : List (Payload size)) (j : Fin N) : Prop :=
  m (.seq j) ≠ 0 → (m (.seq j)).toNat % 2 = 0 →
    cellOf (m (.index j)).toNat = j ∧
    ∀ v, p[(m (.index j)).toNat]? = some v → ∀ i : Fin (kWords size), m (.words j i) = toWords v i

/-- A whole copy of a sound cell is the published value. -/
theorem SoundAt.published_of_copied {m : Mem N size} {p : List (Payload size)} {j : Fin N}
    {staged : List UInt64} (h : SoundAt m p j) (hne : m (.seq j) ≠ 0)
    (heven : (m (.seq j)).toNat % 2 = 0) (hlt : (m (.index j)).toNat < p.length)
    (hstaged : ∀ k : Fin (kWords size), staged[k.val]? = some (m (.words j k))) :
    p[(m (.index j)).toNat]? = some (ofWords staged) := by
  have hv := List.getElem?_eq_getElem hlt
  rw [hv]
  congr 1
  refine (Bytes.ofWords_eq ?_).symm
  intro k hk
  have hkw : k < kWords size := by unfold kWords; omega
  rw [hstaged ⟨k, hkw⟩, (h hne heven).2 _ hv ⟨k, hkw⟩]

/-- The store in flight has made the sequence odd: `s` is what it was before. `room` keeps
the sequence below the wrap, `fresh` says that the reset is undone. -/
structure InFlight (m : Mem N size) (h : History N size) (s : UInt64) : Prop where
  begun : h.published.length < h.begun
  seq : m (.seq (cellOf h.published.length)) = s + 1
  even : s.toNat % 2 = 0
  room : s.toNat + 2 ≤ 2 * h.begun
  fresh : h.retracted (cellOf h.published.length) = false

/-- No store has touched the in-flight cell since it was last left alone. A writer that is
killed here leaves the ring as it found it. -/
def Quiet (m : Mem N size) (h : History N size) : Prop :=
  (m (.seq (cellOf h.published.length))).toNat % 2 = 0

/-- What `Store(v)` has established when it stands at its program counter. Each case is the
one before it and the effect of the access in between. -/
def StorePhase (m : Mem N size) (h : History N size) (v : Payload size) : StorePc → Prop
  | .loadCount => h.begun < h.calls ∧ Quiet m h
  | .loadSeq idx => h.begun < h.calls ∧ Quiet m h ∧ idx = m .writeCount
  | .storeOdd idx s => h.begun < h.calls ∧ Quiet m h ∧ idx = m .writeCount ∧
      s = m (.seq (cellOf h.published.length))
  | .storeIndex idx s => idx = m .writeCount ∧ InFlight m h s
  | .copy idx s i => idx = m .writeCount ∧ InFlight m h s ∧
      m (.index (cellOf h.published.length)) = idx ∧
      ∀ k : Fin (kWords size), k.val < i →
        m (.words (cellOf h.published.length) k) = toWords v k
  | .storeCount idx => idx = m .writeCount ∧ h.published.length < h.begun ∧
      Holds m (cellOf h.published.length) h.published.length v ∧
      h.retracted (cellOf h.published.length) = false

/-- What the writing side has established. A kill keeps nothing. -/
def Phase (m : Mem N size) (h : History N size) : Writer size → Prop
  | .idle => Quiet m h
  | .storing v pc => StorePhase m h v pc
  | .dead => True
  | .repairing .loadCount => True
  | .repairing (.loadSeq idx) | .repairing (.reset idx) => idx = m .writeCount

/-- The invariant of the writing side. The first two fields are for the readers, the bounds
are for the wrap of the 64-bit words, and `phase` is what the writer's next access builds
on. -/
structure Inv (m : Mem N size) (h : History N size) (wr : Writer size) : Prop where
  outside : Outside m h.published
  sound : ∀ j, SoundAt m h.published j
  seq_le : ∀ j, (m (.seq j)).toNat ≤ 2 * h.begun
  published_le : h.published.length ≤ h.begun
  begun_le : h.begun ≤ h.calls
  /-- A published cell reads as never written exactly while it is retracted. -/
  zero_iff : ∀ {q}, q < h.published.length →
    (m (.seq (cellOf q)) = 0 ↔ h.retracted (cellOf q) = true)
  retracted_at : ∀ {j}, h.retracted j = true → j = cellOf h.published.length
  phase : Phase m h wr

theorem Inv.init : Inv (zeroed N size) ⟨[], 0, 0, fun _ => 0, fun _ => false⟩ .idle where
  outside := ⟨rfl, by simp, fun _ => rfl⟩
  sound := fun _ h _ => absurd rfl h
  seq_le := fun _ => Nat.zero_le _
  published_le := Nat.le_refl _
  begun_le := Nat.le_refl _
  zero_iff := by simp
  retracted_at := by simp
  phase := rfl

/-! ### Writes inside the in-flight cell

Most accesses of `Store` write into one cell, and while its sequence is odd nobody believes
what it holds. So there is one lemma for all of these writes, and the accesses below only
have to say which phase comes next. -/

omit [NeZero N] in
theorem update_of_cell_ne {m : Mem N size} {l l' : Loc N size} {x : UInt64}
    (h : l'.cell? ≠ l.cell?) : Function.update m l x l' = m l' :=
  Function.update_of_ne (fun hl => h (by rw [hl])) _ _

omit [NeZero N] in
theorem Holds.update {m : Mem N size} {l : Loc N size} {x : UInt64} {j : Fin N} {q : Nat}
    {v : Payload size} (hh : Holds m j q v) (hl : l.cell? ≠ some j) :
    Holds (Function.update m l x) j q v := by
  have hseq : Function.update m l x (.seq j) = m (.seq j) := update_of_cell_ne hl.symm
  have hidx : Function.update m l x (.index j) = m (.index j) := update_of_cell_ne hl.symm
  have hw : ∀ i, Function.update m l x (.words j i) = m (.words j i) :=
    fun i => update_of_cell_ne hl.symm
  exact ⟨by rw [hseq]; exact hh.seq_ne, by rw [hseq]; exact hh.seq_even,
    by rw [hidx]; exact hh.index, fun i => by rw [hw]; exact hh.words i⟩

/-- Nothing outside the in-flight cell notices a write into it. -/
theorem Outside.update {m : Mem N size} {p : List (Payload size)} {l : Loc N size} {x : UInt64}
    (ho : Outside m p) (hl : l.cell? = some (cellOf p.length)) :
    Outside (Function.update m l x) p where
  count := by
    rw [update_of_cell_ne (by rw [hl]; simp [Loc.cell?])]
    exact ho.count
  held := by
    intro q v hq hn
    have hlt : q < p.length := (List.getElem?_eq_some_iff.mp hq).1
    apply (ho.held hq hn).update
    rw [hl]
    exact fun h => cellOf_ne hlt hn (Option.some.inj h).symm
  even := by
    intro j hj
    rw [update_of_cell_ne (by rw [hl]; exact fun h => hj (Option.some.inj h))]
    exact ho.even hj

theorem SoundAt.update {m : Mem N size} {p : List (Payload size)} {l : Loc N size} {x : UInt64}
    {j : Fin N} (hs : SoundAt m p j) (hl : l.cell? ≠ some j) :
    SoundAt (Function.update m l x) p j := by
  have hseq : Function.update m l x (.seq j) = m (.seq j) := update_of_cell_ne hl.symm
  have hidx : Function.update m l x (.index j) = m (.index j) := update_of_cell_ne hl.symm
  have hw : ∀ i, Function.update m l x (.words j i) = m (.words j i) :=
    fun i => update_of_cell_ne hl.symm
  simpa only [SoundAt, hseq, hidx, hw] using hs

/-- While the in-flight cell's sequence is odd or zero, writing into the cell
keeps every cell sound. -/
theorem sound_update {m : Mem N size} {p : List (Payload size)} {l : Loc N size} {x : UInt64}
    {f : Fin N} (hs : ∀ j, SoundAt m p j) (hl : l.cell? = some f)
    (hodd : Function.update m l x (.seq f) = 0 ∨ (Function.update m l x (.seq f)).toNat % 2 = 1) :
    ∀ j, SoundAt (Function.update m l x) p j := by
  intro j
  by_cases hj : j = f
  · subst hj
    intro hne heven
    rcases hodd with h0 | h1
    · exact absurd h0 hne
    · omega
  · exact (hs j).update (by rw [hl]; exact fun h => hj (Option.some.inj h).symm)

omit [NeZero N] in
theorem seq_le_update {m : Mem N size} {l : Loc N size} {x : UInt64} {b b' : Nat}
    (hs : ∀ j, (m (.seq j)).toNat ≤ b) (hb : b ≤ b')
    (hx : ∀ j, l = .seq j → x.toNat ≤ b') :
    ∀ j, (Function.update m l x (.seq j)).toNat ≤ b' := by
  intro j
  by_cases hj : l = .seq j
  · subst hj
    rw [Function.update_self]
    exact hx j rfl
  · rw [Function.update_of_ne (fun h => hj h.symm)]
    exact (hs j).trans hb

/-! ### Each access of `Store` keeps the invariant

One lemma for each program counter, in the order of the source. The two that publish
something are `Inv.storeEven` (W2), after which the cell is whole and its position still
unpublished, and `Inv.storeCount` (W3), after which the cell has left the writer's hands. -/

section Store

variable {m : Mem N size} {h : History N size} {v : Payload size}

theorem Inv.loadCount (hi : Inv m h (.storing v .loadCount)) :
    Inv m h (.storing v (.loadSeq (m .writeCount))) :=
  { hi with phase := ⟨hi.phase.1, hi.phase.2, rfl⟩ }

/-- The cursor a store loaded names the in-flight cell. -/
theorem Inv.cell_eq {wr : Writer size} {idx : UInt64} (hi : Inv m h wr)
    (hidx : idx = m .writeCount) : (cellOf idx.toNat : Fin N) = cellOf h.published.length := by
  rw [hidx, hi.outside.count]

theorem Inv.loadSeq {idx : UInt64} (hi : Inv m h (.storing v (.loadSeq idx))) :
    Inv m h (.storing v (.storeOdd idx (m (.seq (cellOf idx.toNat))))) := by
  obtain ⟨hcalls, hquiet, hidx⟩ := hi.phase
  exact { hi with phase := ⟨hcalls, hquiet, hidx, by rw [hi.cell_eq hidx]⟩ }

theorem Inv.storeOdd {idx s : UInt64} (hi : Inv m h (.storing v (.storeOdd idx s)))
    (hcalls : h.calls < 2 ^ 63) :
    Inv (Function.update m (.seq (cellOf idx.toNat)) (s + 1))
      (h.afterStore v (.storeOdd idx s)) (.storing v (.storeIndex idx s)) := by
  obtain ⟨hlt, hquiet, hidx, rfl⟩ := hi.phase
  have hle := hi.seq_le (cellOf h.published.length)
  have hs1 : (m (.seq (cellOf h.published.length)) + 1).toNat =
      (m (.seq (cellOf h.published.length))).toNat + 1 :=
    Word.toNat_add_of_lt (by simp; omega)
  rw [hi.cell_eq hidx]
  have hev : (m (.seq (cellOf h.published.length))).toNat % 2 = 0 := hquiet
  exact {
    outside := hi.outside.update rfl
    -- the sequence turns odd, so nothing is claimed about the words of the cell
    sound := sound_update hi.sound rfl (Or.inr (by rw [Function.update_self, hs1]; omega))
    seq_le := seq_le_update hi.seq_le (by simp only [History.afterStore]; omega)
      (fun _ _ => by simp only [History.afterStore]; omega)
    published_le := by
      have := hi.published_le
      simp only [History.afterStore]
      omega
    begun_le := by simp only [History.afterStore]; omega
    zero_iff := by
      intro q hq
      simp only [History.afterStore, hi.cell_eq hidx]
      by_cases hj : (cellOf q : Fin N) = cellOf h.published.length
      · rw [hj, Function.update_self, Function.update_self]
        simp [← UInt64.toNat_inj, hs1]
      · rw [Function.update_of_ne hj, Function.update_of_ne (by simpa using hj)]
        exact hi.zero_iff hq
    retracted_at := by
      intro j hj
      simp only [History.afterStore, hi.cell_eq hidx] at hj
      by_cases hjf : j = cellOf h.published.length
      · exact hjf
      · rw [Function.update_of_ne hjf] at hj
        exact hi.retracted_at hj
    phase := by
      refine ⟨?_, ?_, ?_, ?_, ?_, ?_⟩
      · rw [Function.update_of_ne (by simp)]; exact hidx
      · have := hi.published_le
        simp only [History.afterStore]
        omega
      · exact Function.update_self ..
      · exact hev
      · simp only [History.afterStore]; omega
      · simp only [History.afterStore, hi.cell_eq hidx, Function.update_self] }

/-- A write into the in-flight cell that is not to its sequence, made while the
sequence is odd: only the phase has to be looked at. -/
theorem Inv.writeBody {wr wr' : Writer size} {x : UInt64} {l : Loc N size} (hi : Inv m h wr)
    (hodd : (m (.seq (cellOf h.published.length))).toNat % 2 = 1)
    (hl : l.cell? = some (cellOf h.published.length)) (hseq : ∀ j, l ≠ .seq j)
    (hphase : Phase (Function.update m l x) h wr') : Inv (Function.update m l x) h wr' := by
  have hsame : ∀ j, Function.update m l x (.seq j) = m (.seq j) :=
    fun j => Function.update_of_ne (hseq j).symm _ _
  exact { hi with
    outside := hi.outside.update hl
    sound := sound_update hi.sound hl (Or.inr (by rw [hsame]; exact hodd))
    seq_le := fun j => by rw [hsame]; exact hi.seq_le j
    zero_iff := fun hq => by rw [hsame]; exact hi.zero_iff hq
    phase := hphase }

theorem InFlight.update {s x : UInt64} {l : Loc N size} (hfl : InFlight m h s)
    (hseq : ∀ j, l ≠ .seq j) : InFlight (Function.update m l x) h s :=
  { hfl with seq := by rw [Function.update_of_ne (hseq _).symm]; exact hfl.seq }

/-- The bound on the calls keeps a sequence in flight below the wrap. -/
theorem InFlight.lt {wr : Writer size} {s : UInt64} (hfl : InFlight m h s) (hi : Inv m h wr)
    (hcalls : h.calls < 2 ^ 63) : s.toNat + 2 < 2 ^ 64 := by
  have := hfl.room
  have := hi.begun_le
  omega

theorem InFlight.odd {s : UInt64} (hfl : InFlight m h s) (hs : s.toNat + 2 < 2 ^ 64) :
    (m (.seq (cellOf h.published.length))).toNat % 2 = 1 := by
  have heven := hfl.even
  rw [hfl.seq, Word.toNat_add_of_lt (by simp; omega)]
  simp
  omega

theorem Inv.storeIndex {idx s : UInt64} (hi : Inv m h (.storing v (.storeIndex idx s)))
    (hcalls : h.calls < 2 ^ 63) :
    Inv (Function.update m (.index (cellOf idx.toNat)) idx) h (.storing v (.copy idx s 0)) := by
  obtain ⟨hidx, hfl⟩ := hi.phase
  have hlt := hfl.lt hi hcalls
  rw [hi.cell_eq hidx]
  refine hi.writeBody (hfl.odd hlt) rfl (by simp) ⟨?_, hfl.update (by simp), ?_, by simp⟩
  · rw [Function.update_of_ne (by simp)]; exact hidx
  · exact Function.update_self ..

theorem Inv.storeWord {idx s : UInt64} {i : Nat} (hi : Inv m h (.storing v (.copy idx s i)))
    (hcalls : h.calls < 2 ^ 63) (hlt : i < kWords size) :
    Inv (Function.update m (.words (cellOf idx.toNat) ⟨i, hlt⟩) (toWords v i)) h
      (.storing v (.copy idx s (i + 1))) := by
  obtain ⟨hidx, hfl, hindex, hwords⟩ := hi.phase
  have hs := hfl.lt hi hcalls
  rw [hi.cell_eq hidx]
  refine hi.writeBody (hfl.odd hs) rfl (by simp) ⟨?_, hfl.update (by simp), ?_, ?_⟩
  · rw [Function.update_of_ne (by simp)]; exact hidx
  · rw [Function.update_of_ne (by simp)]; exact hindex
  · intro k hk
    by_cases hki : k = ⟨i, hlt⟩
    · subst hki
      exact Function.update_self ..
    · rw [Function.update_of_ne (by simpa using hki)]
      have hne : k.val ≠ i := fun h => hki (Fin.ext h)
      exact hwords k (by omega)

/-- (W2): the cell is whole again, but its index is not published yet. -/
theorem Inv.storeEven {idx s : UInt64} {i : Nat} (hi : Inv m h (.storing v (.copy idx s i)))
    (hcalls : h.calls < 2 ^ 63) (hge : ¬ i < kWords size) :
    Inv (Function.update m (.seq (cellOf idx.toNat)) (s + 2)) h (.storing v (.storeCount idx)) := by
  obtain ⟨hidx, hfl, hindex, hwords⟩ := hi.phase
  have hs := hfl.lt hi hcalls
  have heven := hfl.even
  have hs2 : (s + 2).toNat = s.toNat + 2 := Word.toNat_add_of_lt (by simp; omega)
  have hne : s + 2 ≠ 0 := (Word.ne_zero_iff _).mpr (by omega)
  rw [hi.cell_eq hidx]
  have hidxN : (m (.index (cellOf h.published.length))).toNat = h.published.length := by
    rw [hindex, hidx, hi.outside.count]
  exact { hi with
    outside := hi.outside.update rfl
    sound := by
      intro j
      by_cases hj : j = cellOf h.published.length
      · subst hj
        intro _ _
        rw [Function.update_of_ne (by simp), hidxN]
        refine ⟨rfl, ?_⟩
        intro u hu
        simp at hu
      · exact (hi.sound j).update (fun h => hj (Option.some.inj h).symm)
    seq_le := seq_le_update hi.seq_le (Nat.le_refl _) (fun _ _ => by have := hfl.room; omega)
    zero_iff := by
      intro q hq
      by_cases hj : (cellOf q : Fin N) = cellOf h.published.length
      · rw [hj, Function.update_self, hfl.fresh]
        simp [hne]
      · rw [Function.update_of_ne (by simpa using hj)]
        exact hi.zero_iff hq
    phase := by
      refine ⟨?_, hfl.begun, ⟨?_, ?_, ?_, ?_⟩, hfl.fresh⟩
      · rw [Function.update_of_ne (by simp)]; exact hidx
      · rw [Function.update_self]; exact hne
      · rw [Function.update_self, hs2]; omega
      · rw [Function.update_of_ne (by simp)]; exact hidxN
      · intro k
        rw [Function.update_of_ne (by simp)]
        exact hwords k (by have := k.isLt; omega) }

/-- After (W3) the last `N` positions are held, the new one included. -/
theorem Inv.held_after_count {idx : UInt64} (hi : Inv m h (.storing v (.storeCount idx))) {q : Nat}
    {u : Payload size} (hq : (h.published ++ [v])[q]? = some u) (hn : h.published.length < q + N) :
    Holds (Function.update m .writeCount (idx + 1)) (cellOf q) q u := by
  obtain ⟨-, -, hholds, -⟩ := hi.phase
  refine Holds.update ?_ (by simp [Loc.cell?])
  rcases Word.getElem?_append_singleton hq with hq | ⟨rfl, rfl⟩
  · exact hi.outside.held hq hn
  · exact hholds

/-- (W3): the position becomes published and its cell leaves the writer's hands. -/
theorem Inv.storeCount {idx : UInt64} (hi : Inv m h (.storing v (.storeCount idx)))
    (hcalls : h.calls < 2 ^ 63) :
    Inv (Function.update m .writeCount (idx + 1)) (h.afterStore v (.storeCount idx)) .idle := by
  obtain ⟨hidx, hbegun, hholds, hfresh⟩ := hi.phase
  have hle := hi.begun_le
  have hcount : (idx + 1).toNat = h.published.length + 1 := by
    rw [Word.toNat_add_of_lt (by rw [hidx, hi.outside.count]; simp; omega), hidx, hi.outside.count]
    rfl
  have hmem : ∀ {l : Loc N size}, l ≠ .writeCount →
      Function.update m .writeCount (idx + 1) l = m l :=
    fun hl => Function.update_of_ne hl _ _
  -- all cells are even now: the in-flight one because it is whole
  have heven : ∀ j, (m (.seq j)).toNat % 2 = 0 := by
    intro j
    by_cases hj : j = cellOf h.published.length
    · rw [hj]; exact hholds.seq_even
    · exact hi.outside.even hj
  exact {
    outside := {
      count := by
        rw [Function.update_self, hcount]
        simp [History.afterStore]
      held := by
        intro q u hq hn
        simp only [History.afterStore, List.length_append, List.length_singleton] at hq hn
        exact hi.held_after_count hq (by omega)
      even := by
        intro j _
        rw [hmem (by simp)]
        exact heven j }
    sound := by
      intro j hne hev
      rw [hmem (by simp)] at hne hev ⊢
      refine ⟨(hi.sound j hne hev).1, ?_⟩
      intro u hu i
      rw [hmem (by simp)]
      -- the value that is published now is the one the cell in flight holds
      rcases Word.getElem?_append_singleton hu with hu | ⟨hq, rfl⟩
      · exact (hi.sound j hne hev).2 u hu i
      · have hj : cellOf h.published.length = j := by rw [← hq]; exact (hi.sound j hne hev).1
        rw [← hj]
        exact hholds.words i
    seq_le := fun j => by rw [hmem (by simp)]; exact hi.seq_le j
    published_le := by
      simp only [History.afterStore, List.length_append, List.length_singleton]
      omega
    begun_le := hi.begun_le
    zero_iff := by
      intro q hq
      simp only [History.afterStore, List.length_append, List.length_singleton] at hq ⊢
      rw [hmem (by simp)]
      by_cases hqn : q = h.published.length
      · rw [hqn, hfresh]
        simp [hholds.seq_ne]
      · exact hi.zero_iff (by omega)
    retracted_at := by
      intro j hj
      -- only the cell in flight could be retracted, and it was stored again
      have hjf := hi.retracted_at hj
      rw [hjf] at hj
      exact absurd hj (by simp [History.afterStore, hfresh])
    phase := by
      simp only [Phase, Quiet]
      rw [hmem (by simp)]
      exact heven _ }

end Store

/-! ### Repair, kills, and whole runs

A kill takes away what the writer knew and nothing else: `Phase` of a dead writer is no
claim at all. That the repair may then set the sequence back to zero is what `zero_iff`
accounts for, with the cells that read as never written although their position was
published. -/

/-- The reset: the in-flight cell reads as never written, and nothing else
changes. -/
theorem Inv.reset {m : Mem N size} {h : History N size} {idx : UInt64}
    (hi : Inv m h (.repairing (.reset idx))) :
    Inv (Function.update m (.seq (cellOf idx.toNat)) 0) (h.afterRepair (.reset idx)) .idle := by
  have hidx : idx = m .writeCount := hi.phase
  rw [hi.cell_eq hidx]
  exact {
    outside := hi.outside.update rfl
    sound := sound_update hi.sound rfl (Or.inl (Function.update_self ..))
    seq_le := seq_le_update hi.seq_le (Nat.le_refl _) (fun _ _ => Nat.zero_le _)
    published_le := hi.published_le
    begun_le := hi.begun_le
    zero_iff := by
      intro q hq
      simp only [History.afterRepair, hi.cell_eq hidx]
      by_cases hj : (cellOf q : Fin N) = cellOf h.published.length
      · rw [hj, Function.update_self, Function.update_self]
        simp
      · rw [Function.update_of_ne hj, Function.update_of_ne (by simpa using hj)]
        exact hi.zero_iff hq
    retracted_at := by
      intro j hj
      simp only [History.afterRepair, hi.cell_eq hidx] at hj
      by_cases hjf : j = cellOf h.published.length
      · exact hjf
      · rw [Function.update_of_ne hjf] at hj
        exact hi.retracted_at hj
    phase := by
      show (Function.update m _ (0 : UInt64) _).toNat % 2 = 0
      simp only [History.afterRepair]
      rw [Function.update_self]
      rfl }

/-- **Every move of the writing side keeps the invariant**, as long as the
sequences cannot wrap. -/
theorem Inv.move {m m' : Mem N size} {h h' : History N size} {wr wr' : Writer size}
    (hi : Inv m h wr) (hmove : WriterMove m h wr m' h' wr') (hcalls : h'.calls < 2 ^ 63) :
    Inv m' h' wr' := by
  cases hmove with
  | callStore v =>
      have hle := hi.begun_le
      exact { hi with
        begun_le := Nat.le_succ_of_le hle
        phase := ⟨Nat.lt_succ_of_le hle, hi.phase⟩ }
  | loadCount v => exact hi.loadCount
  | loadSeq v idx => exact hi.loadSeq
  | storeOdd v idx s => exact hi.storeOdd hcalls
  | storeIndex v idx s => exact hi.storeIndex hcalls
  | storeWord v idx s i hlt => exact hi.storeWord hcalls hlt
  | storeEven v idx s i hge => exact hi.storeEven hcalls hge
  | storeCount v idx => exact hi.storeCount hcalls
  | killStore v pc => exact { hi with phase := trivial }
  | killRepair pc => exact { hi with phase := trivial }
  | callRepair => exact { hi with phase := trivial }
  | repairCount => exact { hi with phase := rfl }
  | repairOdd idx hodd => exact { hi with phase := hi.phase }
  | repairEven idx heven =>
      have hidx : idx = m .writeCount := hi.phase
      rw [hi.cell_eq hidx, Word.and_one_ne_zero] at heven
      have hquiet : (m (.seq (cellOf h.published.length))).toNat % 2 = 0 := by omega
      exact { hi with phase := hquiet }
  | reset idx => exact hi.reset

/-- The number of calls never decreases. A bound on them at the end of a run holds along all
of it. -/
theorem WriterMove.calls_le {m m' : Mem N size} {h h' : History N size} {wr wr' : Writer size}
    (hmove : WriterMove m h wr m' h' wr') : h.calls ≤ h'.calls := by
  cases hmove with
  | callStore => exact Nat.le_succ _
  | _ => exact Nat.le_refl _

/-- The invariant along a run, under the bound on the calls. -/
theorem World.step_inv {w w' : World N size ι} {l : Label size ι}
    (hi : w.hist.calls < 2 ^ 63 → Inv w.mem w.hist w.writer) (h : w.step l = some w') :
    w'.hist.calls < 2 ^ 63 → Inv w'.mem w'.hist w'.writer := by
  intro hcalls
  cases hl : l.isWriting with
  | true =>
      obtain ⟨hmove, -⟩ := World.step_writing h hl
      exact (hi (hmove.calls_le.trans_lt hcalls)).move hmove hcalls
  | false =>
      obtain ⟨hm, hh, hw, -⟩ := World.step_reading h hl
      rw [hm, hh, hw]
      exact hi (by rwa [hh] at hcalls)

theorem World.run_inv {w : World N size ι} {ls : List (Label size ι)} (h : World.run ls = some w)
    (hcalls : w.hist.calls < 2 ^ 63) : Inv w.mem w.hist w.writer :=
  Run.exec_invariant (I := fun w : World N size ι =>
    w.hist.calls < 2 ^ 63 → Inv w.mem w.hist w.writer) World.step_inv (fun _ => Inv.init) h hcalls

end XmBase.Concurrency.SeqlockRing
