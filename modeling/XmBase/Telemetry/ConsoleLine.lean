import XmBase.Telemetry.EventSource
import XmBase.Telemetry.IntegerRendering
import Mathlib.Data.List.TakeWhile
/-!
# XmBase.Telemetry.ConsoleLine

The lines of the console binding (`src/telemetry_console_binding.cpp`): `EmitEventImpl`,
`EmitEventDynImpl` and `ReportHealthImpl` make a message, and `EmitLine` puts the severity,
the wall clock, the process and the source in front of it.

The message goes through `%s`, so it is shown up to its first NUL only. Everything is
assembled in a buffer of 768 bytes, and a line that does not fit loses its end, the reset of
the color included. With a source name of at most 138 bytes **every line fits**, whatever
the message, the clock and the process are (`line_whole`).
-/

namespace XmBase.Telemetry.Console

open Sources (Severity)

inductive HealthState
  | kOk
  | kDegraded
  | kFault
  | kDisconnected
  deriving DecidableEq, Repr

/-- What `%s` prints of a buffer. -/
def cstr (s : Text) : Text := s.takeWhile (· ≠ 0)

/-- What `snprintf` leaves in a buffer of `cap` bytes, in front of the terminator. -/
def snprintf (cap : Nat) (text : Text) : Text := text.take (cap - 1)

/-! ### Pieces of a line -/

/-- `SeverityTag`. -/
def severityTag : Severity → Text
  | .kTrace => ascii "trace"
  | .kDebug => ascii "debug"
  | .kInfo => ascii "info"
  | .kWarn => ascii "warning"
  | .kError => ascii "error"
  | .kFatal => ascii "critical"
  | .kOff => ascii "?"

/-- `ESC`. -/
def esc : UInt8 := 27

/-- `ColorFor`; `tty` is `StderrIsTty()`. -/
def colorFor (tty : Bool) (s : Severity) : Text :=
  if !tty then []
  else
    match s with
    | .kTrace => esc :: ascii "[37m"
    | .kDebug => esc :: ascii "[36m"
    | .kInfo => esc :: ascii "[32m"
    | .kWarn => esc :: ascii "[33m"
    | .kError => esc :: ascii "[31m"
    | .kFatal => esc :: ascii "[1;31m"
    | .kOff => []

/-- `ColorReset`. -/
def colorReset (tty : Bool) : Text := if tty then esc :: ascii "[0m" else []

/-- The text behind the last slash, or all of it: `strrchr(path, '/')`. -/
def baseName (path : Text) : Text := (path.reverse.takeWhile (· ≠ ch '/')).reverse

/-- `ProcessName`, with what `readlink` finds. -/
def processName (link : Option Text) : Text :=
  match link with
  | some target =>
      let path := target.take 1023
      if path.isEmpty then ascii "xmbase" else (baseName (cstr path)).take 63
  | none => ascii "xmbase"

/-- `[%lld.%09lld] ` of the wall clock, in nanoseconds. The two operators truncate. -/
def clockText (ns : Int64) : Text :=
  ascii "[" ++ fmtInteger false 0 (ch 'd') (ns.toInt.tdiv 1000000000) ++
    ascii "." ++ fmtInteger true 9 (ch 'd') (ns.toInt.tmod 1000000000) ++ ascii "] "

/-- `[%.*s] ` of the source, if it has a name. -/
def sourceText : Option Text → Text
  | some name => if name.isEmpty then [] else ascii "[" ++ cstr name ++ ascii "] "
  | none => []

/-- The bytes of a source name. -/
def nameBytes (name : String) : Text := name.toUTF8.data.toList

/-! ### Lines -/

/-- Where a process logs to: whether `stderr` is a terminal, and the link of its
executable. -/
structure Host where
  tty : Bool
  exe : Option Text

/-- What stands in front of the message. -/
def linePrefix (host : Host) (ns : Int64) (source : Option Text) (sev : Severity) : Text :=
  colorFor host.tty sev ++ ascii "[" ++ severityTag sev ++ ascii "] " ++ clockText ns ++
    ascii "[" ++ processName host.exe ++ ascii "]: " ++ sourceText source

def newline : UInt8 := 10

/-- The text of a line, whatever room there is for it. -/
def lineText (host : Host) (ns : Int64) (source : Option Text) (sev : Severity) (msg : Text) :
    Text :=
  linePrefix host ns source sev ++ cstr msg ++ colorReset host.tty ++ [newline]

/-- `EmitLine`, up to `WriteLine`. A length that is no `int` makes `snprintf` fail. -/
def emitLine (host : Host) (ns : Int64) (source : Option Text) (sev : Severity) (msg : Text) :
    Option Text :=
  let text := lineText host ns source sev msg
  let line := snprintf 768 text
  if text.length > 2147483647 then none
  else if text.length ≥ 768 then
    -- truncated: keep it a complete line
    some (line.set 766 newline)
  else some line

/-! ### Messages -/

/-- A call that may log. -/
inductive Emit
  /-- `EmitEvent`, by the macros. -/
  | event (source : UInt32) (sev : Severity) (fmt : Option Text) (args : List Arg)
  /-- `EmitEventDyn`, by the stream macros. -/
  | dyn (source : UInt32) (sev : Severity) (msg : Option Text)
  /-- `ReportHealth`. -/
  | health (subsystem : Option Text) (state : HealthState) (detail : Option Text)
  deriving DecidableEq, Repr

/-- `HealthName`. -/
def healthName : HealthState → Text
  | .kOk => ascii "OK"
  | .kDegraded => ascii "DEGRADED"
  | .kFault => ascii "FAULT"
  | .kDisconnected => ascii "DISCONNECTED"

/-- The severity `ReportHealthImpl` maps a state to. -/
def HealthState.severity : HealthState → Severity
  | .kOk => .kInfo
  | .kDegraded => .kWarn
  | .kFault | .kDisconnected => .kError

def Emit.severity : Emit → Severity
  | .event _ sev _ _ | .dyn _ sev _ => sev
  | .health _ state _ => state.severity

def Emit.source : Emit → UInt32
  | .event source _ _ _ | .dyn source _ _ => source
  | .health .. => 0

/-- The message, in its buffer of 512 bytes; a null one is not logged. -/
def Emit.message? (printf : Printf) : Emit → Option Text
  | .event _ _ fmt args => some (formatMessage printf 512 (fmt.getD []) (packArgs args))
  | .dyn _ _ msg => msg.map fun msg => msg.take 511
  | .health subsystem state detail =>
      let detail := cstr (detail.getD [])
      some (snprintf 512 (ascii "[health] " ++ (subsystem.map cstr).getD (ascii "?") ++ ascii " -> " ++
        healthName state ++ if detail.isEmpty then [] else ascii ": " ++ detail))

/-! ### How long a line is

Every piece has a bound that does not depend on the input, but for the message and the name
of the source. Their sum is what a name may still have. -/

theorem length_cstr_le (s : Text) : (cstr s).length ≤ s.length :=
  (List.takeWhile_prefix _).length_le

theorem length_severityTag_le (sev : Severity) : (severityTag sev).length ≤ 8 := by
  cases sev <;> decide

theorem length_colorFor_le (tty : Bool) (sev : Severity) : (colorFor tty sev).length ≤ 7 := by
  cases tty <;> cases sev <;> decide

theorem length_colorReset_le (tty : Bool) : (colorReset tty).length ≤ 4 := by
  cases tty <;> decide

theorem length_processName_le (link : Option Text) : (processName link).length ≤ 63 := by
  unfold processName
  split
  · dsimp only
    split
    · decide
    · exact List.length_take_le _ _
  · decide

/-- A number below a power of ten. -/
theorem length_decimal_le {zero : Bool} {width k : Nat} {n : Int} (hk : 0 < k) (hw : width ≤ k + 1)
    (hn : n.natAbs < 10 ^ k) : (fmtInteger zero width (ch 'd') n).length ≤ k + 1 := by
  have hdigits : (magnitude (ch 'd') n.natAbs).length ≤ k := by
    rw [magnitude, if_neg (by decide), if_neg (by decide), if_neg (by decide), List.length_map]
    exact (Nat.length_toDigits_le_iff (by decide) hk).mpr hn
  have hsign := length_signText_le (decide (n < 0))
  rw [fmtInteger, length_padded]
  omega

theorem length_clockText_le (ns : Int64) : (clockText ns).length ≤ 25 := by
  have hlo := ns.le_toInt
  have hhi := ns.toInt_lt
  have hsecs : (fmtInteger false 0 (ch 'd') (ns.toInt.tdiv 1000000000)).length ≤ 10 + 1 := by
    refine length_decimal_le (by decide) (by decide) ?_
    rw [Int.natAbs_tdiv]
    refine Nat.div_lt_of_lt_mul ?_
    show ns.toInt.natAbs < 1000000000 * 10 ^ 10
    omega
  have hfrac : (fmtInteger true 9 (ch 'd') (ns.toInt.tmod 1000000000)).length ≤ 9 + 1 := by
    refine length_decimal_le (by decide) (by decide) ?_
    rw [Int.natAbs_tmod]
    exact Nat.mod_lt _ (by decide)
  have hopen : (ascii "[").length = 1 := by decide
  have hpoint : (ascii ".").length = 1 := by decide
  have hclose : (ascii "] ").length = 2 := by decide
  simp only [clockText, List.length_append]
  omega

theorem length_sourceText_le {source : Option Text} {n : Nat}
    (hn : ∀ name, source = some name → name.length ≤ n) : (sourceText source).length ≤ n + 3 := by
  cases source with
  | none => exact Nat.zero_le _
  | some name =>
      have hname := (length_cstr_le name).trans (hn name rfl)
      have hopen : (ascii "[").length = 1 := by decide
      have hclose : (ascii "] ").length = 2 := by decide
      simp only [sourceText]
      split
      · exact Nat.zero_le _
      · simp only [List.length_append]
        omega

/-- **What comes around a message**, at most. The sum of the bounds of the pieces; 512 bytes
of message and a short name are within the rest. -/
theorem length_lineText_le (host : Host) (ns : Int64) {source : Option Text} {n : Nat}
    (hn : ∀ name, source = some name → name.length ≤ n) (sev : Severity) (msg : Text) :
    (lineText host ns source sev msg).length ≤ msg.length + n + 118 := by
  have hcolor := length_colorFor_le host.tty sev
  have htag := length_severityTag_le sev
  have hclock := length_clockText_le ns
  have hprocess := length_processName_le host.exe
  have hsource := length_sourceText_le hn
  have hmsg := length_cstr_le msg
  have hreset := length_colorReset_le host.tty
  have hopen : (ascii "[").length = 1 := by decide
  have hclose : (ascii "] ").length = 2 := by decide
  have hcolon : (ascii "]: ").length = 3 := by decide
  simp only [lineText, linePrefix, List.length_append, List.length_singleton]
  omega

/-- A message fits in its buffer. Each of the three buffers has 512 bytes, one of them for
the terminator. -/
theorem Emit.length_message_le {printf : Printf} {emit : Emit} {msg : Text}
    (h : emit.message? printf = some msg) : msg.length ≤ 511 := by
  cases emit with
  | event source sev fmt args =>
      obtain rfl := Option.some.inj h
      rw [formatMessage_eq printf 512 _ (packArgs_stores args)]
      exact length_cut_le 512 _
  | dyn source sev text =>
      obtain ⟨text, -, rfl⟩ := Option.map_eq_some_iff.mp h
      exact List.length_take_le _ _
  | health subsystem state detail =>
      obtain rfl := Option.some.inj h
      exact List.length_take_le _ _

/-! ### What bytes are in a line

A line must not be ended early, by a NUL or by a newline. The pieces that the binding makes
itself have neither; what is left is the process, which is cut at a NUL, and the name. -/

/-- No control character, or the escape of a color. -/
def Visible (c : UInt8) : Prop := 27 ≤ c

theorem visible_fmtInteger {zero : Bool} {width : Nat} {n : Int} {c : UInt8}
    (h : c ∈ fmtInteger zero width (ch 'd') n) : Visible c := by
  have hdigit : ∀ d : Fin 10, 27 ≤ ch (Nat.digitChar d) := by decide
  have hmag : c ∈ magnitude (ch 'd') n.natAbs → 27 ≤ c := by
    rw [magnitude, if_neg (by decide), if_neg (by decide), if_neg (by decide)]
    intro hc
    obtain ⟨x, hx, rfl⟩ := List.mem_map.mp hc
    obtain ⟨d, hd, rfl⟩ := exists_digit_of_mem_toDigits (by decide) hx
    exact hdigit ⟨d, hd⟩
  have hsign : c ∈ signText (decide (n < 0)) → 27 ≤ c := by
    cases decide (n < 0) with
    | false => intro hc; cases hc
    | true => intro hc; obtain rfl := List.mem_singleton.mp hc; decide
  unfold Visible
  unfold fmtInteger padded at h
  split_ifs at h
  all_goals
    simp only [List.mem_append, List.mem_replicate] at h
    rcases h with (h | h) | h
  · exact hsign h
  · exact h.2 ▸ by decide
  · exact hmag h
  · exact h.2 ▸ by decide
  · exact hsign h
  · exact hmag h

theorem visible_clockText {ns : Int64} {c : UInt8} (h : c ∈ clockText ns) : Visible c := by
  have hfixed : ∀ x ∈ ascii "[" ++ ascii "." ++ ascii "] ", 27 ≤ x := by decide +kernel
  simp only [clockText, List.mem_append] at h hfixed
  rcases h with (((h | h) | h) | h) | h
  · exact hfixed c (.inl (.inl h))
  · exact visible_fmtInteger h
  · exact hfixed c (.inl (.inr h))
  · exact visible_fmtInteger h
  · exact hfixed c (.inr h)

theorem visible_colorFor {tty : Bool} {sev : Severity} {c : UInt8} (h : c ∈ colorFor tty sev) :
    Visible c := by
  have hall : ∀ x ∈ colorFor tty sev, 27 ≤ x := by
    cases tty <;> cases sev <;> decide +kernel
  exact hall c h

theorem visible_severityTag {sev : Severity} {c : UInt8} (h : c ∈ severityTag sev) : Visible c := by
  have hall : ∀ x ∈ severityTag sev, 27 ≤ x := by cases sev <;> decide +kernel
  exact hall c h

theorem visible_colorReset {tty : Bool} {c : UInt8} (h : c ∈ colorReset tty) : Visible c := by
  have hall : ∀ x ∈ colorReset tty, 27 ≤ x := by cases tty <;> decide +kernel
  exact hall c h

/-- What is not visible comes from the process or the source. -/
theorem mem_linePrefix {host : Host} {ns : Int64} {source : Option Text} {sev : Severity}
    {c : UInt8} (h : c ∈ linePrefix host ns source sev) :
    Visible c ∨ c ∈ processName host.exe ∨ ∃ name, source = some name ∧ c ∈ cstr name := by
  have hfixed : ∀ x ∈ ascii "[" ++ ascii "] " ++ ascii "]: ", 27 ≤ x := by decide +kernel
  simp only [List.mem_append] at hfixed
  simp only [linePrefix, List.mem_append] at h
  rcases h with (((((((h | h) | h) | h) | h) | h) | h) | h) | h
  · exact .inl (visible_colorFor h)
  · exact .inl (hfixed c (.inl (.inl h)))
  · exact .inl (visible_severityTag h)
  · exact .inl (hfixed c (.inl (.inr h)))
  · exact .inl (visible_clockText h)
  · exact .inl (hfixed c (.inl (.inl h)))
  · exact .inr (.inl h)
  · exact .inl (hfixed c (.inr h))
  · cases source with
    | none => cases h
    | some name =>
        simp only [sourceText] at h
        split at h
        · cases h
        · simp only [List.mem_append] at h
          rcases h with (h | h) | h
          · exact .inl (hfixed c (.inl (.inl h)))
          · exact .inr (.inr ⟨name, rfl, h⟩)
          · exact .inl (hfixed c (.inl (.inr h)))

theorem ne_zero_of_mem_cstr {s : Text} {c : UInt8} (h : c ∈ cstr s) : c ≠ 0 := by
  have := List.mem_takeWhile_imp h
  simpa using this

theorem ne_zero_of_mem_processName {link : Option Text} {c : UInt8} (h : c ∈ processName link) :
    c ≠ 0 := by
  have hdefault : ∀ x ∈ ascii "xmbase", x ≠ 0 := by decide +kernel
  unfold processName at h
  split at h
  · next target =>
    dsimp only at h
    split at h
    · exact hdefault c h
    · have hbase : c ∈ baseName (cstr (target.take 1023)) := List.mem_of_mem_take h
      rw [baseName, List.mem_reverse] at hbase
      have hmem := (List.takeWhile_prefix _).mem hbase
      exact ne_zero_of_mem_cstr (List.mem_reverse.mp hmem)
  · exact hdefault c h

theorem ne_zero_of_mem_lineText {host : Host} {ns : Int64} {source : Option Text} {sev : Severity}
    {msg : Text} {c : UInt8} (h : c ∈ lineText host ns source sev msg) : c ≠ 0 := by
  have hvisible : Visible c → c ≠ 0 := by rintro hc rfl; exact absurd hc (by unfold Visible; decide)
  simp only [lineText, List.mem_append] at h
  rcases h with ((h | h) | h) | h
  · rcases mem_linePrefix h with hc | hc | ⟨name, -, hc⟩
    · exact hvisible hc
    · exact ne_zero_of_mem_processName hc
    · exact ne_zero_of_mem_cstr hc
  · exact ne_zero_of_mem_cstr h
  · exact hvisible (visible_colorReset h)
  · obtain rfl := List.mem_singleton.mp h
    decide

/-! ### The lines that are written

`Complete` is what the sink relies on: it writes whatever it is given, and counts on a
newline at the end. -/

/-- A line as it goes to `stderr`: terminated, and within the buffer. -/
structure Complete (line : Text) : Prop where
  ends : line.getLast? = some newline
  short : line.length ≤ 767
  text : (0 : UInt8) ∉ line

/-- A line that fits. -/
theorem emitLine_of_lt {host : Host} {ns : Int64} {source : Option Text} {sev : Severity}
    {msg : Text} (h : (lineText host ns source sev msg).length < 768) :
    emitLine host ns source sev msg = some (lineText host ns source sev msg) := by
  unfold emitLine snprintf
  dsimp only
  rw [if_neg (by omega), if_neg (by omega), List.take_of_length_le (by omega)]

/-- A line that does not. Its last character is replaced by the newline. -/
theorem emitLine_of_ge {host : Host} {ns : Int64} {source : Option Text} {sev : Severity}
    {msg line : Text} (h : 768 ≤ (lineText host ns source sev msg).length)
    (hline : emitLine host ns source sev msg = some line) :
    line = (lineText host ns source sev msg).take 766 ++ [newline] := by
  unfold emitLine snprintf at hline
  simp only [Nat.add_one_sub_one] at hline
  split_ifs at hline
  obtain rfl := Option.some.inj hline
  have hlen : ((lineText host ns source sev msg).take 767).length = 767 := by
    rw [List.length_take]
    omega
  rw [List.set_eq_take_append_cons_drop, if_pos (by omega), List.take_take,
    List.drop_eq_nil_of_le (by omega)]
  rfl

/-- **Every line that `EmitLine` writes is complete.** -/
theorem emitLine_complete {host : Host} {ns : Int64} {source : Option Text} {sev : Severity}
    {msg line : Text} (hline : emitLine host ns source sev msg = some line) : Complete line := by
  have htext : ∀ c ∈ lineText host ns source sev msg, c ≠ 0 := fun c => ne_zero_of_mem_lineText
  by_cases hlt : (lineText host ns source sev msg).length < 768
  · rw [emitLine_of_lt hlt] at hline
    obtain rfl := Option.some.inj hline
    refine ⟨?_, by omega, fun hzero => htext 0 hzero rfl⟩
    rw [lineText, List.getLast?_append]
    rfl
  · obtain rfl := emitLine_of_ge (by omega) hline
    refine ⟨?_, ?_, ?_⟩
    · rw [List.getLast?_append]
      rfl
    · rw [List.length_append, List.length_singleton, List.length_take]
      omega
    · intro hzero
      rcases List.mem_append.mp hzero with h | h
      · exact htext 0 (List.mem_of_mem_take h) rfl
      · cases List.mem_singleton.mp h

/-- The line a call writes, once the level has let it pass. -/
def Emit.line? (printf : Printf) (host : Host) (ns : Int64) (names : List String) (emit : Emit) :
    Option Text :=
  (emit.message? printf).bind fun msg =>
    emitLine host ns ((Sources.lookupSource names emit.source).map nameBytes) emit.severity msg

theorem Emit.line?_complete {printf : Printf} {host : Host} {ns : Int64} {names : List String}
    {emit : Emit} {line : Text} (h : emit.line? printf host ns names = some line) :
    Complete line := by
  obtain ⟨msg, -, hline⟩ := Option.bind_eq_some_iff.mp h
  exact emitLine_complete hline

theorem mem_of_lookupSource {names : List String} {id : UInt32} {name : String}
    (h : Sources.lookupSource names id = some name) : name ∈ names := by
  unfold Sources.lookupSource at h
  split_ifs at h
  exact List.mem_of_getElem? h

/-- What a call writes in front of its message. -/
def Emit.front (host : Host) (ns : Int64) (names : List String) (emit : Emit) : Text :=
  linePrefix host ns ((Sources.lookupSource names emit.source).map nameBytes) emit.severity

/-- **No line is cut short**, if the sources have names of at most 138 bytes: all of the
message that is in its buffer is there, up to the first NUL, and so is the reset of the
color. Nothing in front of the message breaks the line, unless a name does. -/
theorem line_whole (printf : Printf) (host : Host) (ns : Int64) {names : List String}
    {emit : Emit} {msg : Text} (hmsg : emit.message? printf = some msg)
    (hnames : ∀ name ∈ names, (nameBytes name).length ≤ 138) :
    emit.line? printf host ns names =
        some (emit.front host ns names ++ cstr msg ++ colorReset host.tty ++ [newline]) ∧
      (newline ∉ processName host.exe → (∀ name ∈ names, newline ∉ nameBytes name) →
        newline ∉ emit.front host ns names) := by
  constructor
  · rw [Emit.line?, hmsg, Option.bind_some]
    refine emitLine_of_lt ?_
    have hsource : ∀ text, (Sources.lookupSource names emit.source).map nameBytes = some text →
        text.length ≤ 138 := by
      intro text htext
      obtain ⟨name, hname, rfl⟩ := Option.map_eq_some_iff.mp htext
      exact hnames name (mem_of_lookupSource hname)
    have hlen := length_lineText_le host ns hsource emit.severity msg
    have := Emit.length_message_le hmsg
    omega
  · intro hprocess hsources hmem
    rcases mem_linePrefix hmem with hc | hc | ⟨text, htext, hc⟩
    · exact absurd hc (by unfold Visible; decide)
    · exact hprocess hc
    · obtain ⟨name, hname, rfl⟩ := Option.map_eq_some_iff.mp htext
      exact hsources name (mem_of_lookupSource hname) ((List.takeWhile_prefix _).mem hc)

/-- A string argument with a NUL in it, to a terminal. -/
def nulArgument : Emit := .event 1 .kWarn (some (ascii "a\x7b\x7db")) [.text [120, 0, 121]]

theorem line_whole_nulArgument :
    nulArgument.line? cPrintf ⟨true, none⟩ 1500000000 ["imu"] = some
      ([esc] ++ ascii "[33m[warning] [1.500000000] [xmbase]: [imu] ax" ++ [esc] ++ ascii "[0m\n") := by
  have hmsg : nulArgument.message? cPrintf = some [97, 120, 0, 121, 98] := by decide +kernel
  have hnames : ∀ name ∈ ["imu"], (nameBytes name).length ≤ 138 := by decide +kernel
  rw [(line_whole cPrintf ⟨true, none⟩ 1500000000 hmsg hnames).1]
  decide +kernel

end XmBase.Telemetry.Console
