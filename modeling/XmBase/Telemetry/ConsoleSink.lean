import XmBase.Telemetry.ConsoleLine
import XmBase.Lib.Run
import XmBase.Lib.Word
/-!
# XmBase.Telemetry.ConsoleSink

The console binding as a system (`src/telemetry_console_binding.cpp`, and the funnels of
`telemetry/event.hpp` and `telemetry/health.hpp` in front of it): any number of threads log,
over one runtime level, one registry of sources and one `stderr`.

A call loads the level, twice if it is an event, and looks up its source with the
registry locked. `WriteLine` then calls `write(2)` until all of the line is taken. What
the kernel takes at a time is its own decision, and it may be interrupted before it has taken
anything.

* Whatever the kernel does, **of each line `stderr` has a first part, and all of it once the
  call has returned**, unless `stderr` failed (`written_in_full`).
* A kernel that takes all of a write of at most `PIPE_BUF` bytes never cuts a line:
  **`stderr` is whole lines, one behind the other** (`lines_never_interleave`).
* As long as nobody sets it, the level of the environment decides **which calls get to write,
  and which do not** (`level_decides`).
-/

namespace XmBase.Telemetry.Console

open Sources (Severity)

/-! ### The level -/

/-- `isspace` in the C locale. -/
def isSpace (c : UInt8) : Bool := c = 32 || (9 ≤ c && c ≤ 13)

/-- The sign `strtol` takes, and the rest. -/
def takeSign : Text → Bool × Text
  | [] => (false, [])
  | c :: s => if c = ch '-' then (true, s) else if c = ch '+' then (false, s) else (false, c :: s)

/-- `strtol(value, &end, 10)`; without a digit nothing is taken and `end == value`. -/
def strtol (value : Text) : Option Int :=
  let (negative, s) := takeSign (value.dropWhile isSpace)
  let digits := s.takeWhile isDigit
  if digits.isEmpty then none
  else
    let n : Int := number digits
    some (max (-(2 ^ 63)) (min (2 ^ 63 - 1) (if negative then -n else n)))

/-- `static_cast<Severity>` of a level from 0 to 6. -/
def severityOf : Nat → Severity
  | 0 => .kTrace
  | 1 => .kDebug
  | 2 => .kInfo
  | 3 => .kWarn
  | 4 => .kError
  | 5 => .kFatal
  | _ => .kOff

/-- `LevelFromEnv`. -/
def levelFromEnv (env : Option Text) (fallback : Severity) : Severity :=
  match env with
  | none => fallback
  | some value =>
      if value.isEmpty then fallback
      else
        match strtol value with
        | none => fallback
        | some level => if level < 0 ∨ 6 < level then fallback else severityOf level.toNat

/-- `ShouldLogImpl`. -/
def shouldLog (level sev : Severity) : Bool := sev ≠ .kOff && level.value ≤ sev.value

/-! ### The system

Threads, a level that anybody may set at any time, and a kernel that decides how much of a
write it takes. `lines`, `stream`, `failed` and `dropped` are the history that the theorems
are about. -/

/-- A thread, and where it is in a call. -/
inductive Thread
  | idle
  /-- About to load the level; `again` once more after that. -/
  | gate (emit : Emit) (again : Bool)
  /-- At `EmitLine`. -/
  | line (emit : Emit)
  /-- In the loop of `WriteLine`. -/
  | writing (c off : Nat)
  deriving DecidableEq, Repr

/-- The whole system. The calls that got to `WriteLine` are numbered; `lines` has their
lines, `stream` what the kernel took of each, in order, `failed` those that were given up, and
`dropped` the calls that the level held back. -/
structure World (ι : Type) where
  level : Severity
  names : List String
  threads : ι → Thread
  lines : List (Emit × Text)
  stream : List (Nat × Text)
  failed : List Nat
  dropped : List Emit

/-- What a thread or the kernel does. -/
inductive Label (ι : Type)
  | call (i : ι) (emit : Emit)
  | load (i : ι)
  /-- `EmitLine`, at a time of the wall clock. -/
  | assemble (i : ι) (ns : Int64)
  /-- `write(2)` takes `n` bytes. -/
  | write (i : ι) (n : Nat)
  /-- `write(2)` fails with `EINTR`. -/
  | interrupt (i : ι)
  /-- `write(2)` fails otherwise. -/
  | error (i : ι)
  | setLevel (sev : Severity)
  | internSource (name : String)

variable {ι : Type} [DecidableEq ι] (printf : Printf) (host : Host)

/-- An event is held back before its arguments are packed. -/
def Emit.twice : Emit → Bool
  | .event .. | .dyn .. => true
  | .health .. => false

def World.set (w : World ι) (i : ι) (t : Thread) : World ι :=
  { w with threads := Function.update w.threads i t }

def World.step (w : World ι) : Label ι → Option (World ι)
  | .call i emit =>
      match w.threads i with
      | .idle => some (w.set i (.gate emit emit.twice))
      | _ => none
  | .load i =>
      match w.threads i with
      | .gate emit again =>
          if shouldLog w.level emit.severity then
            some (w.set i (if again then .gate emit false else .line emit))
          else some { w.set i .idle with dropped := w.dropped ++ [emit] }
      | _ => none
  | .assemble i ns =>
      match w.threads i with
      | .line emit =>
          match emit.line? printf host ns w.names with
          | some line =>
              some { w.set i (.writing w.lines.length 0) with lines := w.lines ++ [(emit, line)] }
          | none => some (w.set i .idle)
      | _ => none
  | .write i n =>
      match w.threads i with
      | .writing c off =>
          w.lines[c]?.bind fun (_, line) =>
            if n ≤ line.length - off then
              some { w.set i (if off + n < line.length then .writing c (off + n) else .idle) with
                stream := if n = 0 then w.stream else w.stream ++ [(c, (line.drop off).take n)] }
            else none
      | _ => none
  | .interrupt i =>
      match w.threads i with
      | .writing .. => some w
      | _ => none
  | .error i =>
      match w.threads i with
      | .writing c _ => some { w.set i .idle with failed := w.failed ++ [c] }
      | _ => none
  | .setLevel sev => some { w with level := sev }
  | .internSource name => some { w with names := (Sources.internSource w.names name).2 }

/-- The binding as `DefaultConsoleBinding` makes it, with the value of `XM_LOG_LEVEL`. -/
def World.init (ι : Type) (env : Option Text) : World ι where
  level := levelFromEnv env .kInfo
  names := []
  threads := fun _ => .idle
  lines := []
  stream := []
  failed := []
  dropped := []

def World.run (env : Option Text) (ls : List (Label ι)) : Option (World ι) :=
  Run.exec (World.step printf host) (World.init ι env) ls

/-! ### What a step can do

To `stderr` a step does nothing, begins a line, writes a part of one, or gives it up. The
invariants are shown for these four. -/

/-- The line a thread is writing, and how much of it is written. -/
def Thread.writing? : Thread → Option (Nat × Nat)
  | .writing c off => some (c, off)
  | _ => none

theorem Thread.writing?_eq_some {t : Thread} {c off : Nat} :
    t.writing? = some (c, off) ↔ t = .writing c off := by
  cases t <;> simp [Thread.writing?]

/-- What a step does to the lines. -/
inductive Move (w : World ι) : Label ι → World ι → Prop
  /-- Nothing. -/
  | silent {l : Label ι} {w' : World ι}
      (hthreads : ∀ j, (w'.threads j).writing? = (w.threads j).writing?)
      (hlines : w'.lines = w.lines) (hstream : w'.stream = w.stream)
      (hfailed : w'.failed = w.failed) : Move w l w'
  | begins {l : Label ι} (i : ι) (emit : Emit) {line : Text}
      (hidle : (w.threads i).writing? = none) (hline : Complete line) :
      Move w l { w.set i (.writing w.lines.length 0) with lines := w.lines ++ [(emit, line)] }
  | takes {i : ι} {c off n : Nat} {emit : Emit} {line : Text} (hi : w.threads i = .writing c off)
      (hc : w.lines[c]? = some (emit, line)) (hn : n ≤ line.length - off) (hpos : 0 < n) :
      Move w (.write i n) { w.set i (if off + n < line.length then .writing c (off + n) else .idle) with
        stream := w.stream ++ [(c, (line.drop off).take n)] }
  | fails {l : Label ι} {i : ι} {c off : Nat} (hi : w.threads i = .writing c off) :
      Move w l { w.set i .idle with failed := w.failed ++ [c] }

variable {printf host} {w w' : World ι} {l : Label ι}

/-- A thread that is not writing and does not begin to. -/
theorem Move.of_set {i : ι} {t : Thread} {dropped : List Emit} (hi : (w.threads i).writing? = none)
    (ht : t.writing? = none) : Move w l { w.set i t with dropped := dropped } := by
  refine .silent ?_ rfl rfl rfl
  intro j
  by_cases hj : j = i
  · subst hj
    simp only [World.set, Function.update_self]
    rw [hi, ht]
  · simp only [World.set, Function.update_of_ne hj]

/-- What a writing thread does when nothing is taken. -/
theorem Move.idles (hw : ∀ j, w'.threads j = w.threads j) (hlines : w'.lines = w.lines)
    (hstream : w'.stream = w.stream) (hfailed : w'.failed = w.failed) : Move w l w' :=
  .silent (fun j => by rw [hw j]) hlines hstream hfailed

theorem World.step_cases (h : w.step printf host l = some w')
    (hoff : ∀ i c off emit line, w.threads i = .writing c off → w.lines[c]? = some (emit, line) →
      off < line.length) : Move w l w' := by
  cases l with
  | call i emit =>
      cases hi : w.threads i with
      | idle =>
          simp only [World.step, hi] at h
          obtain rfl := Option.some.inj h
          exact .of_set (by rw [hi]; rfl) rfl
      | _ => simp [World.step, hi] at h
  | load i =>
      cases hi : w.threads i with
      | gate emit again =>
          simp only [World.step, hi] at h
          split at h
          · obtain rfl := Option.some.inj h
            exact .of_set (by rw [hi]; rfl) (by cases again <;> rfl)
          · obtain rfl := Option.some.inj h
            exact .of_set (by rw [hi]; rfl) rfl
      | _ => simp [World.step, hi] at h
  | assemble i ns =>
      cases hi : w.threads i with
      | line emit =>
          simp only [World.step, hi] at h
          split at h
          · next line hline =>
            obtain rfl := Option.some.inj h
            exact .begins i emit (by rw [hi]; rfl) (Emit.line?_complete hline)
          · obtain rfl := Option.some.inj h
            exact .of_set (by rw [hi]; rfl) rfl
      | _ => simp [World.step, hi] at h
  | write i n =>
      cases hi : w.threads i with
      | writing c off =>
          simp only [World.step, hi] at h
          obtain ⟨⟨emit, line⟩, hc, h⟩ := Option.bind_eq_some_iff.mp h
          split_ifs at h with hn hmore hzero hzero
          · obtain rfl := Option.some.inj h
            subst hzero
            refine .idles ?_ rfl rfl rfl
            intro j
            simp only [World.set, Nat.add_zero, ← hi, Function.update_eq_self]
          · obtain rfl := Option.some.inj h
            have hmove := Move.takes hi hc hn (Nat.pos_of_ne_zero hzero)
            rwa [if_pos hmore] at hmove
          · subst hzero
            exact absurd (hoff i c off emit line hi hc) hmore
          · obtain rfl := Option.some.inj h
            have hmove := Move.takes hi hc hn (Nat.pos_of_ne_zero hzero)
            rwa [if_neg hmore] at hmove
      | _ => simp [World.step, hi] at h
  | interrupt i =>
      cases hi : w.threads i with
      | writing c off =>
          simp only [World.step, hi] at h
          obtain rfl := Option.some.inj h
          exact .idles (fun _ => rfl) rfl rfl rfl
      | _ => simp [World.step, hi] at h
  | error i =>
      cases hi : w.threads i with
      | writing c off =>
          simp only [World.step, hi] at h
          obtain rfl := Option.some.inj h
          exact .fails hi
      | _ => simp [World.step, hi] at h
  | setLevel sev =>
      obtain rfl := Option.some.inj h
      exact .idles (fun _ => rfl) rfl rfl rfl
  | internSource name =>
      obtain rfl := Option.some.inj h
      exact .idles (fun _ => rfl) rfl rfl rfl

/-! ### What is on `stderr`

The stream is a mixture of lines, so what is said of it is said line by line: what the
kernel took of a line so far is its beginning, up to where its thread is. A line that no
thread writes any more is there as a whole, or its write has failed. -/

/-- What the kernel took of the line number `c`. -/
def taken (c : Nat) (stream : List (Nat × Text)) : Text :=
  (stream.filter fun k => k.1 = c).flatMap Prod.snd

theorem taken_append (c : Nat) (stream : List (Nat × Text)) (d : Nat) (bytes : Text) :
    taken c (stream ++ [(d, bytes)]) = taken c stream ++ if d = c then bytes else [] := by
  unfold taken
  rw [List.filter_append, List.flatMap_append]
  by_cases hd : d = c
  · simp [hd]
  · simp [hd]

theorem taken_eq_nil {c : Nat} {stream : List (Nat × Text)} (h : ∀ k ∈ stream, k.1 ≠ c) :
    taken c stream = [] := by
  have hfilter : stream.filter (fun k => k.1 = c) = [] := by
    rw [List.filter_eq_nil_iff]
    intro k hk
    simp [h k hk]
  rw [taken, hfilter]
  rfl

/-- The invariant of the system. The line number `c` belongs to one thread as long as it is
written, and what the kernel took of it is the part in front of that thread's offset. -/
structure Inv (w : World ι) : Prop where
  complete : ∀ e ∈ w.lines, Complete e.2
  known : ∀ k ∈ w.stream, k.1 < w.lines.length
  writing : ∀ i c off, (w.threads i).writing? = some (c, off) → ∃ emit line,
    w.lines[c]? = some (emit, line) ∧ off < line.length ∧ taken c w.stream = line.take off
  unique : ∀ i j c off off', (w.threads i).writing? = some (c, off) →
    (w.threads j).writing? = some (c, off') → i = j
  settled : ∀ c emit line, w.lines[c]? = some (emit, line) →
    (∃ i off, (w.threads i).writing? = some (c, off)) ∨ taken c w.stream = line ∨
      (c ∈ w.failed ∧ taken c w.stream <+: line)

/-- A thread that has just begun to write, or writes on, and any other. -/
theorem writing?_set {w : World ι} {i j : ι} {t : Thread} {c off : Nat}
    (h : ((w.set i t).threads j).writing? = some (c, off)) :
    (j = i ∧ t.writing? = some (c, off)) ∨ (j ≠ i ∧ (w.threads j).writing? = some (c, off)) := by
  by_cases hj : j = i
  · subst hj
    simp only [World.set, Function.update_self] at h
    exact .inl ⟨rfl, h⟩
  · simp only [World.set, Function.update_of_ne hj] at h
    exact .inr ⟨hj, h⟩

theorem writing?_set_of_ne {w : World ι} {i j : ι} (t : Thread) (hj : j ≠ i) :
    ((w.set i t).threads j).writing? = (w.threads j).writing? := by
  simp only [World.set, Function.update_of_ne hj]

theorem writing?_set_self (w : World ι) (i : ι) (t : Thread) :
    ((w.set i t).threads i).writing? = t.writing? := by
  simp only [World.set, Function.update_self]

/-- A line begins. Nothing of it is on `stderr` yet. -/
theorem Inv.begins (hw : Inv w) {i : ι} (emit : Emit) {line : Text}
    (hidle : (w.threads i).writing? = none) (hline : Complete line) :
    Inv { w.set i (.writing w.lines.length 0) with lines := w.lines ++ [(emit, line)] } where
  complete := by
    intro e he
    rcases List.mem_append.mp he with he | he
    · exact hw.complete e he
    · obtain rfl := List.mem_singleton.mp he
      exact hline
  known := fun k hk => (hw.known k hk).trans (by simp)
  writing := by
    intro j c off hj
    rcases writing?_set hj with ⟨rfl, hc⟩ | ⟨-, hc⟩
    · obtain ⟨rfl, rfl⟩ := Prod.mk.inj (Option.some.inj hc)
      refine ⟨emit, line, List.getElem?_concat_length, ?_, ?_⟩
      · exact List.length_pos_iff.mpr (by rintro rfl; exact absurd hline.ends (by simp))
      · rw [List.take_zero]
        exact taken_eq_nil fun k hk => (hw.known k hk).ne
    · obtain ⟨emit', line', hget, hrest⟩ := hw.writing j c off hc
      exact ⟨emit', line', Word.getElem?_of_prefix (List.prefix_append _ _) hget, hrest⟩
  unique := by
    intro j k c off off' hj hk
    have hfresh : ∀ {j : ι} {off : Nat}, (w.threads j).writing? ≠ some (w.lines.length, off) := by
      intro j off hj
      obtain ⟨_, _, hget, -⟩ := hw.writing _ _ _ hj
      have := (List.getElem?_eq_some_iff.mp hget).1
      omega
    rcases writing?_set hj with ⟨rfl, hc⟩ | ⟨-, hc⟩ <;> rcases writing?_set hk with ⟨rfl, hc'⟩ | ⟨-, hc'⟩
    · rfl
    · obtain ⟨rfl, -⟩ := Prod.mk.inj (Option.some.inj hc)
      exact absurd hc' hfresh
    · obtain ⟨rfl, -⟩ := Prod.mk.inj (Option.some.inj hc')
      exact absurd hc hfresh
    · exact hw.unique j k c off off' hc hc'
  settled := by
    intro c emit' line' hget
    rcases Nat.lt_or_ge c w.lines.length with hlt | hge
    · rw [List.getElem?_append_left hlt] at hget
      rcases hw.settled c emit' line' hget with ⟨j, off, hj⟩ | hdone | hfailed
      · have hne : j ≠ i := by
          rintro rfl
          rw [hidle] at hj
          cases hj
        exact .inl ⟨j, off, (writing?_set_of_ne _ hne).trans hj⟩
      · exact .inr (.inl hdone)
      · exact .inr (.inr hfailed)
    · obtain rfl : c = w.lines.length := by
        have := (List.getElem?_eq_some_iff.mp hget).1
        rw [List.length_append, List.length_singleton] at this
        omega
      exact .inl ⟨i, 0, writing?_set_self _ _ _⟩

/-- What a thread writes next is not on `stderr`, and then it is. -/
theorem taken_takes {c off n : Nat} {stream : List (Nat × Text)} {line : Text}
    (h : taken c stream = line.take off) :
    taken c (stream ++ [(c, (line.drop off).take n)]) = line.take (off + n) := by
  rw [taken_append, if_pos rfl, h, List.take_add]

/-- The kernel takes a part of a line. It is the next part of the line, so what there is of
the line is still its beginning. -/
theorem Inv.takes (hw : Inv w) {i : ι} {c off n : Nat} {emit : Emit} {line : Text}
    (hi : w.threads i = .writing c off) (hc : w.lines[c]? = some (emit, line))
    (hn : n ≤ line.length - off) :
    Inv { w.set i (if off + n < line.length then .writing c (off + n) else .idle) with
      stream := w.stream ++ [(c, (line.drop off).take n)] } := by
  have hwriting := Thread.writing?_eq_some.mpr hi
  obtain ⟨emit₀, line₀, hget, hoff, htaken⟩ := hw.writing i c off hwriting
  obtain ⟨rfl, rfl⟩ := Prod.mk.inj (Option.some.inj (hget.symm.trans hc))
  have hnext : ∀ {d off' : Nat}, (if off + n < line₀.length then Thread.writing c (off + n)
      else .idle).writing? = some (d, off') → d = c ∧ off' = off + n ∧ off + n < line₀.length := by
    intro d off' hd
    split at hd
    · next hlt =>
      obtain ⟨rfl, rfl⟩ := Prod.mk.inj (Option.some.inj hd)
      exact ⟨rfl, rfl, hlt⟩
    · cases hd
  refine ⟨hw.complete, ?_, ?_, ?_, ?_⟩
  · intro k hk
    rcases List.mem_append.mp hk with hk | hk
    · exact hw.known k hk
    · obtain rfl := List.mem_singleton.mp hk
      exact (List.getElem?_eq_some_iff.mp hc).1
  · intro j d off' hj
    rcases writing?_set hj with ⟨rfl, hd⟩ | ⟨hne, hd⟩
    · obtain ⟨rfl, rfl, hlt⟩ := hnext hd
      exact ⟨emit₀, line₀, hc, hlt, taken_takes htaken⟩
    · obtain ⟨emit', line', hget', hoff', htaken'⟩ := hw.writing j d off' hd
      have hcd : c ≠ d := by
        rintro rfl
        exact hne (hw.unique j i _ _ _ hd hwriting)
      refine ⟨emit', line', hget', hoff', ?_⟩
      rw [taken_append, if_neg hcd, List.append_nil, htaken']
  · intro j k d o o' hj hk
    rcases writing?_set hj with ⟨rfl, hd⟩ | ⟨-, hd⟩ <;> rcases writing?_set hk with ⟨rfl, hd'⟩ | ⟨-, hd'⟩
    · rfl
    · obtain ⟨rfl, -⟩ := hnext hd
      exact hw.unique j k _ _ _ hwriting hd'
    · obtain ⟨rfl, -⟩ := hnext hd'
      exact hw.unique j k _ _ _ hd hwriting
    · exact hw.unique j k d o o' hd hd'
  · intro d emit' line' hget'
    by_cases hcd : c = d
    · subst hcd
      obtain ⟨rfl, rfl⟩ := Prod.mk.inj (Option.some.inj (hget'.symm.trans hc))
      by_cases hlt : off + n < line'.length
      · refine .inl ⟨i, off + n, ?_⟩
        exact (writing?_set_self _ _ _).trans (by rw [if_pos hlt]; rfl)
      · refine .inr (.inl ((taken_takes htaken).trans (List.take_of_length_le (by omega))))
    · rw [taken_append, if_neg hcd, List.append_nil]
      rcases hw.settled d emit' line' hget' with ⟨j, o, hj⟩ | hdone | hfailed
      · have hne : j ≠ i := by
          rintro rfl
          rw [hwriting] at hj
          exact hcd (Prod.mk.inj (Option.some.inj hj)).1
        exact .inl ⟨j, o, (writing?_set_of_ne _ hne).trans hj⟩
      · exact .inr (.inl hdone)
      · exact .inr (.inr hfailed)

/-- A line is given up. What is there of it stays there. -/
theorem Inv.fails (hw : Inv w) {i : ι} {c off : Nat} (hi : w.threads i = .writing c off) :
    Inv { w.set i .idle with failed := w.failed ++ [c] } := by
  have hwriting := Thread.writing?_eq_some.mpr hi
  have hother : ∀ {j : ι} {d o : Nat}, ((w.set i .idle).threads j).writing? = some (d, o) →
      (w.threads j).writing? = some (d, o) := by
    intro j d o hj
    rcases writing?_set hj with ⟨-, hd⟩ | ⟨-, hd⟩
    · cases hd
    · exact hd
  refine ⟨hw.complete, hw.known, fun j d o hj => hw.writing j d o (hother hj),
    fun j k d o o' hj hk => hw.unique j k d o o' (hother hj) (hother hk), ?_⟩
  intro d emit line hget
  by_cases hcd : c = d
  · subst hcd
    obtain ⟨emit₀, line₀, hget₀, -, htaken⟩ := hw.writing i c off hwriting
    obtain ⟨rfl, rfl⟩ := Prod.mk.inj (Option.some.inj (hget₀.symm.trans hget))
    refine .inr (.inr ⟨List.mem_append_right _ (List.mem_singleton_self c), ?_⟩)
    exact htaken ▸ List.take_prefix _ _
  · rcases hw.settled d emit line hget with ⟨j, o, hj⟩ | hdone | ⟨hfailed, hprefix⟩
    · have hne : j ≠ i := by
        rintro rfl
        rw [hwriting] at hj
        exact hcd (Prod.mk.inj (Option.some.inj hj)).1
      exact .inl ⟨j, o, (writing?_set_of_ne _ hne).trans hj⟩
    · exact .inr (.inl hdone)
    · exact .inr (.inr ⟨List.mem_append_left _ hfailed, hprefix⟩)

theorem Inv.move (hw : Inv w) (h : w.step printf host l = some w') : Move w l w' := by
  refine World.step_cases h ?_
  intro i c off emit line hi hc
  obtain ⟨emit₀, line₀, hget, hoff, -⟩ := hw.writing i c off (Thread.writing?_eq_some.mpr hi)
  obtain ⟨rfl, rfl⟩ := Prod.mk.inj (Option.some.inj (hget.symm.trans hc))
  exact hoff

theorem Inv.step (hw : Inv w) (h : w.step printf host l = some w') : Inv w' := by
  cases hw.move h with
  | silent hthreads hlines hstream hfailed =>
      exact ⟨hlines ▸ hw.complete, hlines ▸ hstream ▸ hw.known,
        fun i c off hi => hlines ▸ hstream ▸ hw.writing i c off (hthreads i ▸ hi),
        fun i j c off off' hi hj => hw.unique i j c off off' (hthreads i ▸ hi) (hthreads j ▸ hj),
        fun c emit line hc => by
          simp only [hthreads, hstream, hfailed]
          exact hw.settled c emit line (hlines ▸ hc)⟩
  | begins i emit hidle hline => exact hw.begins emit hidle hline
  | takes hi hc hn hpos => exact hw.takes hi hc hn
  | fails hi => exact hw.fails hi

omit [DecidableEq ι] in
theorem Inv.init (env : Option Text) : Inv (World.init ι env) where
  complete := by simp [World.init]
  known := by simp [World.init]
  writing := by simp [World.init, Thread.writing?]
  unique := by simp [World.init, Thread.writing?]
  settled := by simp [World.init]

theorem World.run_inv {env : Option Text} {ls : List (Label ι)}
    (h : World.run printf host env ls = some w) : Inv w :=
  Run.exec_invariant (fun hw hstep => hw.step hstep) (.init env) h

/-- **Nothing is lost, repeated or reordered within a line**, however the kernel takes it:
`stderr` has a first part of every line, and all of it once its thread has moved on, unless
`stderr` failed. -/
theorem written_in_full {env : Option Text} {ls : List (Label ι)}
    (hrun : World.run printf host env ls = some w) {c : Nat} {emit : Emit} {line : Text}
    (hc : w.lines[c]? = some (emit, line)) :
    Complete line ∧ taken c w.stream <+: line ∧
      ((∀ i off, w.threads i ≠ .writing c off) → c ∉ w.failed → taken c w.stream = line) := by
  have hw := World.run_inv hrun
  refine ⟨hw.complete _ (List.mem_of_getElem? hc), ?_, ?_⟩
  · rcases hw.settled c emit line hc with ⟨i, off, hi⟩ | hdone | ⟨-, hprefix⟩
    · obtain ⟨emit₀, line₀, hget, -, htaken⟩ := hw.writing i c off hi
      obtain ⟨rfl, rfl⟩ := Prod.mk.inj (Option.some.inj (hget.symm.trans hc))
      exact htaken ▸ List.take_prefix _ _
    · exact hdone ▸ List.prefix_refl _
    · exact hprefix
  · intro hgone hok
    rcases hw.settled c emit line hc with ⟨i, off, hi⟩ | hdone | ⟨hfailed, -⟩
    · exact absurd (Thread.writing?_eq_some.mp hi) (hgone i off)
    · exact hdone
    · exact absurd hfailed hok

/-- Two threads log at once, to a kernel that takes the lines bit by bit. -/
def shortWrites : List (Label Bool) :=
  [.internSource "imu", .call false (.dyn 1 .kWarn (some (ascii "ab"))),
   .call true (.health (some (ascii "arm")) .kFault none), .load false, .load true, .load false,
   .assemble true 1, .assemble false 0, .write false 5, .write true 3, .interrupt false,
   .write false 38, .write true 51]

theorem written_in_full_shortWrites : ∃ w : World Bool,
    World.run cPrintf ⟨false, none⟩ none shortWrites = some w ∧
    w.stream.map Prod.fst = [1, 0, 1, 0] ∧
    taken 0 w.stream = ascii "[error] [0.000000001] [xmbase]: [health] arm -> FAULT\n" := by
  have hex : ∃ w : World Bool, World.run cPrintf ⟨false, none⟩ none shortWrites = some w ∧
      w.lines[0]? = some (.health (some (ascii "arm")) .kFault none,
        ascii "[error] [0.000000001] [xmbase]: [health] arm -> FAULT\n") ∧
      w.stream.map Prod.fst = [1, 0, 1, 0] ∧ (∀ i, w.threads i = .idle) ∧ w.failed = [] :=
    Run.exists_exec (by decide +kernel)
  obtain ⟨w, hrun, hline, hstream, hgone, hok⟩ := hex
  refine ⟨w, hrun, hstream, (written_in_full hrun hline).2.2 ?_ (by simp [hok])⟩
  intro i off hi
  rw [hgone i] at hi
  cases hi

/-! ### Whole lines

Under the kernel's promise a write of a line is one step, so no other line can get in
between. The promise is a condition on the steps and no property of the code. -/

/-- What a thread has left to write. -/
def World.left (w : World ι) (i : ι) : Option Text :=
  (w.threads i).writing?.bind fun (c, off) => w.lines[c]?.map fun e => e.2.drop off

/-- The kernel takes all of a write of at most `pipeBuf` bytes. -/
def TakesAll (pipeBuf : Nat) (w : World ι) : Label ι → Prop
  | .write i n => ∀ left ∈ w.left i, left.length ≤ pipeBuf → n = left.length
  | _ => True

instance (pipeBuf : Nat) (w : World ι) : (l : Label ι) → Decidable (TakesAll pipeBuf w l)
  | .write i n =>
      inferInstanceAs (Decidable (∀ left ∈ w.left i, left.length ≤ pipeBuf → n = left.length))
  | .call .. | .load _ | .assemble .. | .interrupt _ | .error _ | .setLevel _ | .internSource _ =>
      .isTrue trivial

/-- `stderr` is whole lines, and none of them twice. -/
structure Whole (w : World ι) : Prop where
  lines : ∀ k ∈ w.stream, ∃ emit, w.lines[k.1]? = some (emit, k.2)
  once : (w.stream.map Prod.fst).Nodup

omit [DecidableEq ι] in
/-- Then what is being written is not there at all. -/
theorem Whole.fresh (hwhole : Whole w) (hw : Inv w) {i : ι} {c off : Nat}
    (hi : w.threads i = .writing c off) : off = 0 ∧ c ∉ w.stream.map Prod.fst := by
  obtain ⟨emit, line, hget, hoff, htaken⟩ := hw.writing i c off (Thread.writing?_eq_some.mpr hi)
  have habsent : c ∉ w.stream.map Prod.fst := by
    intro hmem
    obtain ⟨k, hk, rfl⟩ := List.mem_map.mp hmem
    obtain ⟨emit', hget'⟩ := hwhole.lines k hk
    obtain ⟨-, rfl⟩ := Prod.mk.inj (Option.some.inj (hget.symm.trans hget'))
    have hsub : k.2.length ≤ (taken k.1 w.stream).length := by
      unfold taken
      have hin : k ∈ w.stream.filter fun x => x.1 = k.1 := List.mem_filter.mpr ⟨hk, by simp⟩
      obtain ⟨before, after, heq⟩ := List.append_of_mem hin
      simp only [heq, List.flatMap_append, List.flatMap_cons, List.length_append]
      omega
    rw [htaken, List.length_take] at hsub
    omega
  refine ⟨?_, habsent⟩
  rw [taken_eq_nil (fun k hk hkc => habsent (List.mem_map.mpr ⟨k, hk, hkc⟩))] at htaken
  have hzero := congrArg List.length htaken
  rw [List.length_nil, List.length_take] at hzero
  omega

/-- A step of a kernel that takes whole lines. A thread that writes has all of its line
left, and it goes out in one piece. -/
theorem Whole.step {pipeBuf : Nat} (hbuf : 767 ≤ pipeBuf) (htakes : TakesAll pipeBuf w l)
    (hw : Inv w) (hwhole : Whole w) (h : w.step printf host l = some w') : Whole w' := by
  cases hw.move h with
  | silent _ hlines hstream _ => exact ⟨hlines ▸ hstream ▸ hwhole.lines, hstream ▸ hwhole.once⟩
  | begins i emit hidle hline =>
      refine ⟨?_, hwhole.once⟩
      intro k hk
      obtain ⟨emit', hget⟩ := hwhole.lines k hk
      exact ⟨emit', Word.getElem?_of_prefix (List.prefix_append _ _) hget⟩
  | @takes i c off n emit line hi hc hn hpos =>
      obtain ⟨rfl, habsent⟩ := hwhole.fresh hw hi
      have hshort := (hw.complete _ (List.mem_of_getElem? hc)).short
      -- all of the line is left, and a line is short enough
      have hleft : line ∈ w.left i := by simp [World.left, hi, hc, Thread.writing?]
      obtain rfl : n = line.length := htakes line hleft (hshort.trans hbuf)
      refine ⟨?_, ?_⟩
      · intro k hk
        rcases List.mem_append.mp hk with hk | hk
        · exact hwhole.lines k hk
        · obtain rfl := List.mem_singleton.mp hk
          rw [List.drop_zero, List.take_length]
          exact ⟨emit, hc⟩
      · rw [List.map_append]
        exact hwhole.once.append (List.nodup_singleton c) (by simpa using habsent)
  | fails hi => exact ⟨hwhole.lines, hwhole.once⟩

/-- **Lines never interleave.** If the kernel takes all of a write of at most `PIPE_BUF`
bytes, and that is at least what a line may have, then `stderr` is complete lines one behind
the other, each of another call. -/
theorem lines_never_interleave (pipeBuf : Nat) (hbuf : 767 ≤ pipeBuf) {env : Option Text}
    {ls : List (Label ι)} (hrun : World.run printf host env ls = some w)
    (htakes : Run.Steps (World.step printf host) (TakesAll pipeBuf) (World.init ι env) ls) :
    (∀ k ∈ w.stream, Complete k.2 ∧ ∃ emit, w.lines[k.1]? = some (emit, k.2)) ∧
      (w.stream.map Prod.fst).Nodup := by
  obtain ⟨hw, hwhole⟩ := Run.exec_invariant_of_steps (I := fun w => Inv w ∧ Whole w)
    (fun hC hI hstep => ⟨hI.1.step hstep, hI.2.step hbuf hC hI.1 hstep⟩) htakes
    ⟨.init env, by simp [World.init], by simp [World.init]⟩ hrun
  refine ⟨?_, hwhole.once⟩
  intro k hk
  obtain ⟨emit, hget⟩ := hwhole.lines k hk
  exact ⟨hw.complete _ (List.mem_of_getElem? hget), emit, hget⟩

/-- The same two, to a kernel that takes a line at a time. -/
def wholeWrites : List (Label Bool) :=
  [.internSource "imu", .call false (.dyn 1 .kWarn (some (ascii "ab"))),
   .call true (.health (some (ascii "arm")) .kFault none), .load false, .load true, .load false,
   .assemble true 1, .assemble false 0, .interrupt true, .write false 43, .write true 54]

theorem lines_never_interleave_wholeWrites : ∃ w : World Bool,
    World.run cPrintf ⟨false, none⟩ none wholeWrites = some w ∧
    w.stream.map Prod.fst = [1, 0] ∧ (∀ k ∈ w.stream, Complete k.2) := by
  have hex : ∃ w : World Bool, World.run cPrintf ⟨false, none⟩ none wholeWrites = some w ∧
      w.stream.map Prod.fst = [1, 0] := Run.exists_exec (by decide +kernel)
  obtain ⟨w, hrun, hstream⟩ := hex
  exact ⟨w, hrun, hstream, fun k hk =>
    ((lines_never_interleave 4096 (by decide) hrun (by decide +kernel)).1 k hk).1⟩

/-! ### The level in a run

The level is loaded with no lock, so a call is judged by a level that may have been set
since. What can be said of a run is therefore about the bounds between which the level
stays. -/

theorem shouldLog_eq_true {level sev : Severity} :
    shouldLog level sev = true ↔ sev ≠ .kOff ∧ level.value ≤ sev.value := by
  simp [shouldLog]

theorem shouldLog_eq_false {level sev : Severity} :
    shouldLog level sev = false ↔ sev = .kOff ∨ sev.value < level.value := by
  rw [← Bool.not_eq_true, shouldLog_eq_true, not_and_or, not_not, not_le]

/-- As long as the level is between `lo` and `hi`: who is past the gate is not below `lo`,
and who was held back is below `hi`. A severity of `off` never passes. -/
structure Gated (lo hi : Nat) (w : World ι) : Prop where
  level : lo ≤ w.level.value ∧ w.level.value ≤ hi
  passed : ∀ i emit, w.threads i = .line emit →
    emit.severity ≠ .kOff ∧ lo ≤ emit.severity.value
  lines : ∀ e ∈ w.lines, e.1.severity ≠ .kOff ∧ lo ≤ e.1.severity.value
  dropped : ∀ emit ∈ w.dropped, emit.severity = .kOff ∨ emit.severity.value < hi

/-- The step leaves the level between the two. -/
def Within (lo hi : Nat) : Label ι → Prop
  | .setLevel sev => lo ≤ sev.value ∧ sev.value ≤ hi
  | _ => True

/-- A thread goes on. -/
theorem Gated.set {lo hi : Nat} (hw : Gated lo hi w) (i : ι) {t : Thread}
    (ht : ∀ emit, t = .line emit → emit.severity ≠ .kOff ∧ lo ≤ emit.severity.value) :
    Gated lo hi (w.set i t) := by
  refine { hw with passed := ?_ }
  intro j emit hj
  by_cases hji : j = i
  · subst hji
    simp only [World.set, Function.update_self] at hj
    exact ht emit hj
  · simp only [World.set, Function.update_of_ne hji] at hj
    exact hw.passed j emit hj

theorem Gated.step {lo hi : Nat} (hl : Within lo hi l) (hw : Gated lo hi w)
    (h : w.step printf host l = some w') : Gated lo hi w' := by
  cases l with
  | call i emit =>
      cases hi : w.threads i with
      | idle =>
          simp only [World.step, hi] at h
          obtain rfl := Option.some.inj h
          exact hw.set i (fun _ ht => by cases ht)
      | _ => simp [World.step, hi] at h
  | load i =>
      cases hi : w.threads i with
      | gate emit again =>
          simp only [World.step, hi] at h
          split at h
          · next hlog =>
            obtain rfl := Option.some.inj h
            obtain ⟨hoff, hle⟩ := shouldLog_eq_true.mp hlog
            refine hw.set i ?_
            intro emit' ht
            cases again with
            | true => cases ht
            | false =>
                obtain rfl := Thread.line.inj ht
                exact ⟨hoff, hw.level.1.trans hle⟩
          · next hlog =>
            obtain rfl := Option.some.inj h
            refine { hw.set i (t := .idle) (fun _ ht => by cases ht) with dropped := ?_ }
            intro emit' hmem
            rcases List.mem_append.mp hmem with hmem | hmem
            · exact hw.dropped emit' hmem
            · obtain rfl := List.mem_singleton.mp hmem
              exact (shouldLog_eq_false.mp (Bool.eq_false_of_not_eq_true hlog)).imp_right
                fun hlt => hlt.trans_le hw.level.2
      | _ => simp [World.step, hi] at h
  | assemble i ns =>
      cases hi : w.threads i with
      | line emit =>
          simp only [World.step, hi] at h
          split at h
          · obtain rfl := Option.some.inj h
            refine { hw.set i (t := .writing w.lines.length 0) (fun _ ht => by cases ht) with
              lines := ?_ }
            intro e hmem
            rcases List.mem_append.mp hmem with hmem | hmem
            · exact hw.lines e hmem
            · obtain rfl := List.mem_singleton.mp hmem
              exact hw.passed i emit hi
          · obtain rfl := Option.some.inj h
            exact hw.set i (fun _ ht => by cases ht)
      | _ => simp [World.step, hi] at h
  | write i n =>
      cases hi : w.threads i with
      | writing c off =>
          simp only [World.step, hi] at h
          obtain ⟨⟨emit, line⟩, -, h⟩ := Option.bind_eq_some_iff.mp h
          split_ifs at h
          all_goals
            obtain rfl := Option.some.inj h
            exact { hw.set i (fun _ ht => by cases ht) with }
      | _ => simp [World.step, hi] at h
  | interrupt i =>
      cases hi : w.threads i with
      | writing c off =>
          simp only [World.step, hi] at h
          obtain rfl := Option.some.inj h
          exact hw
      | _ => simp [World.step, hi] at h
  | error i =>
      cases hi : w.threads i with
      | writing c off =>
          simp only [World.step, hi] at h
          obtain rfl := Option.some.inj h
          exact { hw.set i (t := .idle) (fun _ ht => by cases ht) with }
      | _ => simp [World.step, hi] at h
  | setLevel sev =>
      obtain rfl := Option.some.inj h
      exact { hw with level := hl }
  | internSource name =>
      obtain rfl := Option.some.inj h
      exact { hw with }

/-- **The level decides who writes.** With the level between `lo` and `hi` throughout,
nobody below `lo` gets to `WriteLine`, and nobody from `hi` on is held back. With `lo = hi`,
a level that nobody changes, the two halves say exactly who writes. -/
theorem level_decides {lo hi : Nat} {env : Option Text} {ls : List (Label ι)}
    (henv : lo ≤ (levelFromEnv env .kInfo).value ∧ (levelFromEnv env .kInfo).value ≤ hi)
    (hls : ∀ l ∈ ls, Within lo hi l) (hrun : World.run printf host env ls = some w) :
    (∀ e ∈ w.lines, e.1.severity ≠ .kOff ∧ lo ≤ e.1.severity.value) ∧
      ∀ emit ∈ w.dropped, emit.severity = .kOff ∨ emit.severity.value < hi := by
  have hw : Gated lo hi w := Run.exec_invariant_of_steps
    (fun hl hw hstep => Gated.step hl hw hstep) (Run.steps_of_forall_mem hls _)
    { level := henv
      passed := fun i emit hi => by cases hi
      lines := by simp [World.init]
      dropped := by simp [World.init] } hrun
  exact ⟨hw.lines, hw.dropped⟩

theorem level_decides_wholeWrites : ∃ w : World Bool,
    World.run cPrintf ⟨false, none⟩ (some (ascii " +4abc")) (wholeWrites.take 5) = some w ∧
    w.dropped = [.dyn 1 .kWarn (some (ascii "ab"))] ∧
    ∀ emit ∈ w.dropped, emit.severity = .kOff ∨ emit.severity.value < 4 := by
  have hex : ∃ w : World Bool,
      World.run cPrintf ⟨false, none⟩ (some (ascii " +4abc")) (wholeWrites.take 5) = some w ∧
      w.dropped = [.dyn 1 .kWarn (some (ascii "ab"))] := Run.exists_exec (by decide +kernel)
  obtain ⟨w, hrun, hdropped⟩ := hex
  have hwithin : ∀ l ∈ wholeWrites.take 5, Within 4 4 l := by simp [wholeWrites, Within]
  exact ⟨w, hrun, hdropped, (level_decides (by decide +kernel) hwithin hrun).2⟩

end XmBase.Telemetry.Console
