import Mathlib.Data.Bool.AllAny
import XmBase.Lib.Json
import XmBase.Telemetry.NumberRoom
/-!
# XmBase.Testing.BenchReport

The report writer of the bench harness
(`include/xmbase/testing/bench_harness.hpp`): `JsonEscapeTo` and the text that
`WriteJsonReport` builds, which is appended field by field, with a flag at each field
for the comma behind it. `reportJson` is what the report says, as a JSON value.

A double is written with `%.1f` into `num[64]`. One whose sign and digits before the
point fill 62 characters is cut right behind the point, and `1000.` is no number in
JSON. That is the only way to lose: **the report parses, as `reportJson`, exactly where
no double in it is of that length** (`report_parses_iff`).
-/

namespace XmBase.Testing

open Telemetry (Text ascii ch Printf IntegerConversions DoubleConversions cPrintf
  cPrintf_integers cPrintf_doubles Digits Stops decimal signText padded magnitude readConversion
  length_signText length_signText_le length_decimal_le_sixteen)
open Telemetry.Double

/-! ### The rows -/

/-- `Stats`; a double is given by its bits. -/
structure Stats where
  p50 : UInt64
  p99 : UInt64
  p999 : UInt64
  max : UInt64
  mean : UInt64
  samples : UInt64

structure BenchResult where
  name : Text
  layer : Text
  payloadBytes : UInt64
  contended : Bool
  batch : Int32
  stats : Stats
  allocations : UInt64
  allocGated : Bool
  hasJitter : Bool
  jitterP99Ns : UInt64
  jitterMaxNs : UInt64
  group : Text
  mode : Text
  rateHz : UInt64
  achievedFps : UInt64
  notes : Text

structure HardwareContext where
  cpuModel : Text
  governor : Text
  kernel : Text
  preemptRt : Bool
  nproc : UInt32
  loadAvg1m : UInt64
  loadAvg5m : UInt64
  loadAvg15m : UInt64
  display : Text
  glRenderer : Text

/-- A NaN compares false. -/
def isNaN (bits : UInt64) : Bool := exponent bits = 2047 && bits.toNat % 2 ^ 52 ≠ 0

/-- `x > 0.0`. -/
def gtZero (bits : UInt64) : Bool :=
  !isNaN bits && !negative bits && bits.toNat % 2 ^ 63 ≠ 0

/-- `x >= 0.0`, which `-0.0` is. -/
def geZero (bits : UInt64) : Bool :=
  !isNaN bits && (!negative bits || bits.toNat % 2 ^ 63 = 0)

/-- `rate_hz` is emitted. -/
def BenchResult.hasRate (r : BenchResult) : Bool := gtZero r.rateHz

/-- `achieved_fps` is emitted. -/
def BenchResult.hasFps (r : BenchResult) : Bool := geZero r.achievedFps

/-! ### The text -/

/-- What `JsonEscapeTo` appends for a byte. -/
def escapeByte (c : UInt8) : Text :=
  if c = ch '"' then ascii "\\\""
  else if c = ch '\\' then ascii "\\\\"
  else if c = ch '\n' then ascii "\\n"
  else if c = ch '\t' then ascii "\\t"
  else if c ≥ 0x20 then [c]
  else []

/-- What `JsonEscapeTo` appends. -/
def jsonEscape (value : Text) : Text := value.flatMap escapeByte

def commaText (trailingComma : Bool) : Text := if trailingComma then ascii ", " else []

def fieldStr (key : String) (value : Text) (trailingComma : Bool) : Text :=
  ascii "\"" ++ ascii key ++ ascii "\": \"" ++ jsonEscape value ++ ascii "\"" ++
    commaText trailingComma

/-- What `snprintf(num, sizeof(num), "%.1f", value)` leaves in `num[64]`. -/
def numText (printf : Printf) (value : UInt64) : Text :=
  (printf (ascii "%.1f") (.double value)).take 63

def fieldNum (printf : Printf) (key : String) (value : UInt64) (trailingComma : Bool) : Text :=
  ascii "\"" ++ ascii key ++ ascii "\": " ++ numText printf value ++ commaText trailingComma

def intText (printf : Printf) (value : Int64) : Text :=
  (printf (ascii "%lld") (.int value)).take 63

def fieldInt (printf : Printf) (key : String) (value : Int64) (trailingComma : Bool) : Text :=
  ascii "\"" ++ ascii key ++ ascii "\": " ++ intText printf value ++ commaText trailingComma

def fieldBool (key : String) (value : Bool) (trailingComma : Bool) : Text :=
  ascii "\"" ++ ascii key ++ ascii "\": " ++ (if value then ascii "true" else ascii "false") ++
    commaText trailingComma

section

variable (printf : Printf)

/-- The fields of `"hardware"`. -/
def hardwareText (hw : HardwareContext) : Text :=
  fieldStr "cpu_model" hw.cpuModel true ++
  fieldInt printf "nproc" (.ofNat hw.nproc.toNat) true ++
  fieldStr "governor" hw.governor true ++
  fieldStr "kernel" hw.kernel true ++
  fieldBool "preempt_rt" hw.preemptRt true ++
  (if !hw.display.isEmpty then fieldStr "display" hw.display true else []) ++
  (if !hw.glRenderer.isEmpty then fieldStr "gl_renderer" hw.glRenderer true else []) ++
  fieldNum printf "load_avg_1m" hw.loadAvg1m true ++
  fieldNum printf "load_avg_5m" hw.loadAvg5m true ++
  fieldNum printf "load_avg_15m" hw.loadAvg15m false

/-- The elements of `"failures"`, from index `i` on. -/
def failuresText : (i : Nat) → List Text → Text
  | _, [] => []
  | i, f :: fs =>
      (if i = 0 then ascii "\"" else ascii ", \"") ++ jsonEscape f ++ ascii "\"" ++
        failuresText (i + 1) fs

/-- The fields of a row up to `"allocations"`, which all have a comma behind them. -/
def rowHead (r : BenchResult) : Text :=
  fieldStr "name" r.name true ++
  fieldStr "layer" r.layer true ++
  (if !r.group.isEmpty then fieldStr "group" r.group true else []) ++
  (if !r.mode.isEmpty then fieldStr "mode" r.mode true else []) ++
  fieldInt printf "payload_bytes" r.payloadBytes.toInt64 true ++
  fieldBool "contended" r.contended true ++
  fieldStr "unit" (ascii "ns") true ++
  (if r.hasRate then fieldNum printf "rate_hz" r.rateHz true else []) ++
  fieldInt printf "batch" r.batch.toInt64 true ++
  fieldInt printf "samples" r.stats.samples.toInt64 true ++
  fieldNum printf "p50" r.stats.p50 true ++
  fieldNum printf "p99" r.stats.p99 true ++
  fieldNum printf "p999" r.stats.p999 true ++
  fieldNum printf "max" r.stats.max true ++
  fieldNum printf "mean" r.stats.mean true ++
  fieldInt printf "allocations" r.allocations.toInt64 true

/-- The other fields of a row, whose commas depend on what is set. -/
def rowTail (r : BenchResult) : Text :=
  let more := r.hasJitter || r.hasFps || !r.notes.isEmpty
  fieldBool "alloc_gated" r.allocGated more ++
  (if r.hasJitter then
    fieldNum printf "jitter_p99" r.jitterP99Ns true ++
    fieldNum printf "jitter_max" r.jitterMaxNs (r.hasFps || !r.notes.isEmpty)
  else []) ++
  (if r.hasFps then fieldNum printf "achieved_fps" r.achievedFps (!r.notes.isEmpty) else []) ++
  (if !r.notes.isEmpty then fieldStr "notes" r.notes false else [])

/-- The rows; the last has no comma behind it. -/
def rowsText : List BenchResult → Text
  | [] => []
  | r :: rs =>
      ascii "    \x7b " ++ rowHead printf r ++ rowTail printf r ++
        (if rs.isEmpty then ascii " \x7d\n" else ascii " \x7d,\n") ++ rowsText rs

/-- The text `WriteJsonReport` builds; `now` is what `UtcTimestamp` returns. -/
def writeJsonReport (schema now : Text) (hw : HardwareContext) (results : List BenchResult)
    (smoke : Bool) (scale : UInt64) (gateFailures : List Text) : Text :=
  ascii "\x7b\n  " ++
  fieldStr "schema" schema true ++
  fieldStr "generated_at_utc" now true ++
  fieldBool "smoke" smoke true ++
  fieldNum printf "scale" scale false ++
  ascii ",\n  \"hardware\": \x7b " ++
  hardwareText printf hw ++
  ascii " \x7d,\n  \"alloc_gate\": \x7b " ++
  fieldBool "passed" gateFailures.isEmpty true ++
  ascii "\"failures\": [" ++
  failuresText 0 gateFailures ++
  ascii "] \x7d,\n  \"benchmarks\": [\n" ++
  rowsText printf results ++
  ascii "  ]\n\x7d\n"

/-! ### What it says -/

/-- Control characters are dropped, apart from line feeds and tabs. -/
def cleaned (s : Text) : Text := s.filter fun c => c ≥ 0x20 || c = ch '\n' || c = ch '\t'

def strJson (s : Text) : Json.Value := .string (cleaned s)

def numJson (value : UInt64) : Json.Value := .number (numText printf value)

def intJson (value : Int64) : Json.Value := .number (intText printf value)

/-- A field that is there if it is set. -/
def optional (set : Bool) (key : String) (v : Json.Value) : List (Text × Json.Value) :=
  if set then [(ascii key, v)] else []

def hardwareJson (hw : HardwareContext) : Json.Value :=
  .object <|
    [(ascii "cpu_model", strJson hw.cpuModel),
      (ascii "nproc", intJson printf (.ofNat hw.nproc.toNat)),
      (ascii "governor", strJson hw.governor), (ascii "kernel", strJson hw.kernel),
      (ascii "preempt_rt", .bool hw.preemptRt)] ++
    optional (!hw.display.isEmpty) "display" (strJson hw.display) ++
    optional (!hw.glRenderer.isEmpty) "gl_renderer" (strJson hw.glRenderer) ++
    [(ascii "load_avg_1m", numJson printf hw.loadAvg1m),
      (ascii "load_avg_5m", numJson printf hw.loadAvg5m),
      (ascii "load_avg_15m", numJson printf hw.loadAvg15m)]

def rowJson (r : BenchResult) : Json.Value :=
  .object <|
    [(ascii "name", strJson r.name), (ascii "layer", strJson r.layer)] ++
    optional (!r.group.isEmpty) "group" (strJson r.group) ++
    optional (!r.mode.isEmpty) "mode" (strJson r.mode) ++
    [(ascii "payload_bytes", intJson printf r.payloadBytes.toInt64),
      (ascii "contended", .bool r.contended), (ascii "unit", strJson (ascii "ns"))] ++
    optional r.hasRate "rate_hz" (numJson printf r.rateHz) ++
    [(ascii "batch", intJson printf r.batch.toInt64),
      (ascii "samples", intJson printf r.stats.samples.toInt64),
      (ascii "p50", numJson printf r.stats.p50), (ascii "p99", numJson printf r.stats.p99),
      (ascii "p999", numJson printf r.stats.p999), (ascii "max", numJson printf r.stats.max),
      (ascii "mean", numJson printf r.stats.mean),
      (ascii "allocations", intJson printf r.allocations.toInt64),
      (ascii "alloc_gated", .bool r.allocGated)] ++
    optional r.hasJitter "jitter_p99" (numJson printf r.jitterP99Ns) ++
    optional r.hasJitter "jitter_max" (numJson printf r.jitterMaxNs) ++
    optional r.hasFps "achieved_fps" (numJson printf r.achievedFps) ++
    optional (!r.notes.isEmpty) "notes" (strJson r.notes)

def reportJson (schema now : Text) (hw : HardwareContext) (results : List BenchResult)
    (smoke : Bool) (scale : UInt64) (gateFailures : List Text) : Json.Value :=
  .object
    [(ascii "schema", strJson schema), (ascii "generated_at_utc", strJson now),
      (ascii "smoke", .bool smoke), (ascii "scale", numJson printf scale),
      (ascii "hardware", hardwareJson printf hw),
      (ascii "alloc_gate", .object
        [(ascii "passed", .bool gateFailures.isEmpty),
          (ascii "failures", .array (gateFailures.map strJson))]),
      (ascii "benchmarks", .array (results.map (rowJson printf)))]

end

/-! ### Strings

`JsonEscapeTo` drops what it does not escape, so a string comes back cleaned and not as it
was. -/

theorem quotes_escapeByte (c : UInt8) :
    Json.Quotes (escapeByte c) (cleaned [c]) := by
  unfold escapeByte
  split_ifs with hquote hslash hnewline htab hplain
  · subst hquote
    exact Json.quotes_escape (by decide) (by decide)
  · subst hslash
    exact Json.quotes_escape (by decide) (by decide)
  · subst hnewline
    exact Json.quotes_escape (by decide) (by decide)
  · subst htab
    exact Json.quotes_escape (by decide) (by decide)
  · have hkeep : cleaned [c] = [c] := by
      simp only [cleaned, List.filter_cons, decide_eq_true hplain, Bool.true_or, if_true,
        List.filter_nil]
    rw [hkeep]
    exact Json.quotes_plain ⟨hquote, hslash, UInt8.not_lt.mpr hplain⟩
  · have hdrop : cleaned [c] = [] := by
      simp only [cleaned, List.filter_cons, decide_eq_false hplain, decide_eq_false hnewline,
        decide_eq_false htab, Bool.or_false, Bool.false_eq_true, if_false, List.filter_nil]
    rw [hdrop]
    exact .nil

/-- **What is escaped decodes to what was kept.** -/
theorem quotes_jsonEscape (s : Text) : Json.Quotes (jsonEscape s) (cleaned s) := by
  induction s with
  | nil => exact .nil
  | cons c s ih =>
      have hclean : cleaned (c :: s) = cleaned [c] ++ cleaned s := List.filter_append [c] s
      rw [hclean]
      exact (quotes_escapeByte c).append ih

theorem closed_quoted (s : Text) :
    Json.Closed (ascii "\"" ++ jsonEscape s ++ ascii "\"") [.string (cleaned s)] :=
  (quotes_jsonEscape s).closed

/-- The text before a value. -/
def keyText (key : String) : Text := ascii "\"" ++ ascii key ++ ascii "\": "

/-- A key that needs no escape. -/
def PlainKey (key : String) : Prop := (ascii key).all (fun c => Json.Plain c) = true

instance (key : String) : Decidable (PlainKey key) := inferInstanceAs (Decidable (_ = _))

theorem closed_keyText (key : String) (h : PlainKey key := by decide) :
    Json.Closed (keyText key) [.string (ascii key), .colon] := by
  have hplain : ∀ c ∈ ascii key, Json.Plain c := List.all_iff_forall_prop.mp h
  have hcolon : Json.Closed (ascii ": ") [.colon] := fun tokens => rfl
  have hsplit : keyText key = (ascii "\"" ++ ascii key ++ ascii "\"") ++ ascii ": " := by
    rw [keyText, List.append_assoc _ (ascii "\"") (ascii ": ")]
    rfl
  rw [hsplit]
  exact (Json.quotes_of_plain hplain).closed.closed_append hcolon

/-! ### Numbers

What `%.1f` prints of a finite double is a sign, digits, a point and a digit. The buffer
cuts it after 63 characters, and only a cut right behind the point leaves no number. -/

/-- A sign, digits that do not begin with a superfluous zero, and something behind them
that is no digit. -/
theorem isNumber_parts (b : Bool) {ds rest : Text} (hds : Digits ds)
    (hzero : ds = [ch '0'] ∨ ds ≠ [] ∧ ds.head? ≠ some (ch '0')) (hrest : Stops rest) :
    Json.isNumber (signText b ++ (ds ++ rest)) = Json.isFraction rest := by
  have hskip : (if (signText b ++ (ds ++ rest)).head? = some (Json.byte '-') then
      (signText b ++ (ds ++ rest)).tail else signText b ++ (ds ++ rest)) = ds ++ rest := by
    cases b with
    | true => rfl
    | false =>
        apply if_neg
        intro hhead
        cases ds with
        | nil => simp at hzero
        | cons d ds =>
            have hd := hds d List.mem_cons_self
            obtain rfl : d = Json.byte '-' := Option.some.inj hhead
            exact absurd hd (by decide)
  obtain ⟨htake, hdrop⟩ := Telemetry.takeWhile_append_stop (p := Json.isDigit) hds hrest
  have hwhole : (!ds.isEmpty && (decide (ds = [Json.byte '0']) ||
      decide (ds.head? ≠ some (Json.byte '0')))) = true := by
    rcases hzero with rfl | ⟨hne, hhead⟩
    · decide
    · replace hhead : ds.head? ≠ some (Json.byte '0') := hhead
      rw [decide_eq_true hhead, Bool.or_true, Bool.and_true, Bool.not_eq_true',
        List.isEmpty_eq_false_iff]
      exact hne
  rw [Json.isNumber]
  simp only [hskip, htake, hdrop, hwhole, Bool.true_and]

theorem digits_decimal (n : Nat) : Digits (decimal n) := by
  intro c hc
  obtain ⟨d, hd, rfl⟩ := List.mem_map.mp hc
  obtain ⟨k, hk, rfl⟩ := Telemetry.exists_digit_of_mem_toDigits (by decide) hd
  have hall : ∀ k : Fin 10, Telemetry.isDigit (ch (Nat.digitChar k)) = true := by decide
  exact hall ⟨k, hk⟩

theorem decimal_ne_nil (n : Nat) : decimal n ≠ [] := fun h =>
  absurd (List.map_eq_nil_iff.mp h) Nat.toDigits_ne_nil

theorem head_decimal {n : Nat} (hn : n ≠ 0) : (decimal n).head? ≠ some (ch '0') := by
  have hall : ∀ k : Fin 10, k.val ≠ 0 → ch (Nat.digitChar k) ≠ ch '0' := by decide
  induction n using Nat.strongRecOn with
  | _ n ih =>
      show ((Nat.toDigits 10 n).map ch).head? ≠ some (ch '0')
      rw [Nat.toDigits_eq_if (by decide)]
      split
      · next hlt => exact fun h => hall ⟨n, hlt⟩ hn (Option.some.inj h)
      · next hge =>
        have hih := ih (n / 10) (by omega) (by omega)
        rw [List.map_append]
        cases hdigits : (Nat.toDigits 10 (n / 10)).map ch with
        | nil => exact absurd (List.map_eq_nil_iff.mp hdigits) Nat.toDigits_ne_nil
        | cons d ds =>
            have hdecimal : decimal ((n / 10 : Nat) : Int) = d :: ds := hdigits
            rw [hdecimal] at hih
            exact hih

/-- The digits of a number, all or the first of them. The first of them is not zero, unless
it is the only one. -/
theorem decimal_parts (n : Nat) {k : Nat} (hk : 0 < k) :
    Digits ((decimal n).take k) ∧
      ((decimal n).take k = [ch '0'] ∨
        (decimal n).take k ≠ [] ∧ ((decimal n).take k).head? ≠ some (ch '0')) := by
  refine ⟨fun c hc => digits_decimal n c (List.mem_of_mem_take hc), ?_⟩
  by_cases hn : n = 0
  · left
    subst hn
    have hzero : decimal ((0 : Nat) : Int) = [ch '0'] := by decide
    rw [hzero]
    exact List.take_of_length_le hk
  · right
    refine ⟨fun h => decimal_ne_nil n ((List.take_eq_nil_iff.mp h).resolve_left hk.ne'), ?_⟩
    rw [List.head?_take, if_neg hk.ne']
    exact head_decimal hn

/-- The characters of a double before the point. -/
def wholeLength (x : UInt64) : Nat :=
  (if negative x then 1 else 0) + (decimal (floor x)).length

/-- What `%.1f` makes of a double. -/
theorem exists_fixed {printf : Printf} (hd : DoubleConversions printf) {x : UInt64}
    (hx : Finite x) : ∃ (n : Nat) (d : UInt8), Telemetry.isDigit d = true ∧
      printf (ascii "%.1f") (.double x) =
        signText (negative x) ++ (decimal n ++ [ch '.', d]) ∧
      ((signText (negative x)).length + (decimal n).length = 62 ↔
        wholeLength x = 62) := by
  have hread : readConversion (ascii "%.1f") = some ⟨false, 0, some 1, false, ch 'f'⟩ := by
    decide +kernel
  have htext := hd x hread rfl (by decide)
  have hpad : ∀ sign body : Text, padded false 0 sign body = sign ++ body := by
    intro sign body
    rw [padded, if_neg Bool.false_ne_true, Nat.zero_sub]
    rfl
  generalize printf (ascii "%.1f") (.double x) = text at htext
  cases htext with
  | whole hletter hwhole =>
      refine ⟨floor x, ch '0', by decide, hpad _ _, ?_⟩
      rw [length_signText]
      rfl
  | rounded hletter hfinite hwhole hn hds hdigits =>
      rename_i n ds
      obtain ⟨d, rfl⟩ := List.length_eq_one_iff.mp hds
      refine ⟨n, d, hdigits d List.mem_cons_self, hpad _ _, ?_⟩
      -- a double with a fraction is far shorter
      have hfloor := Telemetry.Double.floor_lt hfinite hwhole
      have hdecimal := length_decimal_le_sixteen (n := n) (by omega)
      have hwholeDecimal := length_decimal_le_sixteen hfloor.le
      have hsign := length_signText_le (negative x)
      rw [wholeLength, ← length_signText]
      omega
  | scientific he => exact absurd he (by decide)
  | generalFixed hg => exact absurd hg (by decide)
  | generalScientific hg => exact absurd hg (by decide)
  | nonfinite hfinite => exact absurd hx hfinite

/-- A sign, digits and more of the bytes of a number. -/
theorem signed_bytes (b : Bool) {ds rest : Text} (hds : Digits ds) (hne : ds ≠ [])
    (hrest : ∀ e ∈ rest, Json.isNumberByte e = true) :
    ∃ c w, signText b ++ (ds ++ rest) = c :: w ∧
      (Json.isDigit c = true ∨ c = Json.byte '-') ∧ ∀ e ∈ w, Json.isNumberByte e = true := by
  have hbytes : ∀ e ∈ ds ++ rest, Json.isNumberByte e = true := by
    intro e he
    rcases List.mem_append.mp he with he | he
    · have hdigit : Json.isDigit e = true := hds e he
      simp only [Json.isNumberByte, hdigit, Bool.true_or]
    · exact hrest e he
  cases b with
  | true => exact ⟨_, _, rfl, .inr rfl, hbytes⟩
  | false =>
      cases ds with
      | nil => exact absurd rfl hne
      | cons c w =>
          exact ⟨c, w ++ rest, rfl, .inl (hds c List.mem_cons_self),
            fun e he => hbytes e (List.mem_cons_of_mem c he)⟩

/-- What is written for a double can only be a number. So a number that is cut is read to
its end, and then found to be none. -/
theorem numText_bytes {printf : Printf} (hd : DoubleConversions printf) {x : UInt64}
    (hx : Finite x) : ∃ c w, numText printf x = c :: w ∧
      (Json.isDigit c = true ∨ c = Json.byte '-') ∧ ∀ e ∈ w, Json.isNumberByte e = true := by
  obtain ⟨n, d, hdigit, htext, -⟩ := exists_fixed hd hx
  have hrest : ∀ e ∈ [ch '.', d], Json.isNumberByte e = true := by
    intro e he
    rcases List.mem_cons.mp he with rfl | he
    · decide
    · obtain rfl := List.mem_singleton.mp he
      replace hdigit : Json.isDigit e = true := hdigit
      simp only [Json.isNumberByte, hdigit, Bool.true_or]
  obtain ⟨c, w, heq, hc, hw⟩ := signed_bytes (negative x) (digits_decimal n) (decimal_ne_nil n) hrest
  refine ⟨c, w.take 62, ?_, hc, fun e he => hw e (List.mem_of_mem_take he)⟩
  rw [numText, htext, heq]
  rfl

/-- **It is one, unless it is cut behind the point.** -/
theorem isNumber_numText {printf : Printf} (hd : DoubleConversions printf) {x : UInt64}
    (hx : Finite x) : Json.isNumber (numText printf x) = true ↔ wholeLength x ≠ 62 := by
  obtain ⟨n, d, hdigit, htext, hlength⟩ := exists_fixed hd hx
  have hsign := length_signText_le (negative x)
  have hdecimal : 0 < (decimal n).length := List.length_pos_iff.mpr (decimal_ne_nil n)
  have hpoint : ∀ t, Stops (ch '.' :: t) := by
    intro t c hc
    obtain rfl := Option.some.inj hc
    decide
  rw [Ne, ← hlength, numText, htext]
  rcases lt_trichotomy ((signText (negative x)).length + (decimal n).length) 62
    with hlt | heq | hgt
  · obtain ⟨hdigits, hzero⟩ := decimal_parts n hdecimal
    rw [List.take_length] at hdigits hzero
    have hfit : (signText (negative x) ++
        (decimal n ++ [ch '.', d])).length ≤ 63 := by
      simp only [List.length_append, List.length_cons, List.length_nil]
      omega
    have hfraction : Json.isFraction [ch '.', d] = true := by
      replace hdigit : Json.isDigit d = true := hdigit
      rw [Json.isFraction, if_pos (show ch '.' = Json.byte '.' from rfl),
        List.takeWhile_cons_of_pos hdigit,
        List.dropWhile_cons_of_pos hdigit]
      rfl
    rw [List.take_of_length_le hfit, isNumber_parts _ hdigits hzero (hpoint [d]), hfraction]
    exact iff_of_true rfl hlt.ne
  · obtain ⟨hdigits, hzero⟩ := decimal_parts n hdecimal
    rw [List.take_length] at hdigits hzero
    -- one character is left for the point
    have hcut : (signText (negative x) ++ (decimal n ++ [ch '.', d])).take 63 =
        signText (negative x) ++ (decimal n ++ [ch '.']) := by
      rw [← List.append_assoc, ← List.append_assoc, List.take_append, List.length_append, heq,
        List.take_of_length_le (by rw [List.length_append]; omega)]
      rfl
    rw [hcut, isNumber_parts _ hdigits hzero (hpoint [])]
    exact iff_of_false (by decide) (not_not_intro heq)
  · obtain ⟨hdigits, hzero⟩ := decimal_parts n
      (k := 63 - (signText (negative x)).length) (by omega)
    -- the cut is among the digits, and the point is gone
    have hcut : (signText (negative x) ++ (decimal n ++ [ch '.', d])).take 63 =
        signText (negative x) ++
          ((decimal n).take (63 - (signText (negative x)).length) ++ []) := by
      have htake : (signText (negative x)).take 63 = signText (negative x) :=
        List.take_of_length_le (by omega)
      have hnone : 63 - (signText (negative x)).length - (decimal n).length = 0 := by
        omega
      rw [List.take_append, htake, List.take_append, hnone, List.take_zero]
    rw [hcut, isNumber_parts _ hdigits hzero (fun c hc => by cases hc)]
    exact iff_of_true rfl hgt.ne'

/-- An integer is written as a number. -/
theorem intText_eq {printf : Printf} (hi : IntegerConversions printf) (v : Int64) :
    intText printf v =
      signText (v.toInt < 0) ++ decimal (v.toInt.natAbs : Nat) := by
  have hread : readConversion (ascii "%lld") = some ⟨false, 0, none, true, ch 'd'⟩ := by
    decide +kernel
  have hlo := v.le_toInt
  have hhi := v.toInt_lt
  have hsign := length_signText_le (v.toInt < 0)
  have hdecimal := Telemetry.length_magnitude_le (ch 'd') (n := v.toInt.natAbs) (by omega)
  rw [intText, hi hread rfl rfl (Telemetry.Conversion.integer_signed rfl v), padded,
    if_neg Bool.false_ne_true, Nat.zero_sub]
  apply List.take_of_length_le
  show (signText (v.toInt < 0) ++ magnitude (ch 'd') v.toInt.natAbs).length ≤ 63
  rw [List.length_append]
  omega

/-! ### Fields

A field with its key, as a piece of the text. It is read as a field if its double is written
as a number, and spoils the report if it is not. -/

section

variable (printf : Printf)

/-- A text that is read as the tokens `ts`, provided the doubles `ds` are all written
as numbers. -/
def Emits (ds : List UInt64) (t : Text) (ts : List Json.Token) : Prop :=
  Json.Lexed (∀ x ∈ ds, Json.isNumber (numText printf x) = true) t ts

variable {printf}

theorem Emits.of_lexed {t : Text} {ts : List Json.Token} (h : Json.Lexed True t ts) :
    Emits printf [] t ts :=
  h.congr ⟨fun _ => nofun, fun _ => trivial⟩

theorem Emits.of_and {ds ds' : List UInt64} {t : Text} {ts : List Json.Token}
    (h : Json.Lexed ((∀ x ∈ ds, Json.isNumber (numText printf x) = true) ∧
      ∀ x ∈ ds', Json.isNumber (numText printf x) = true) t ts) : Emits printf (ds ++ ds') t ts :=
  h.congr List.forall_mem_append.symm

/-- `field` writes the field `f`, with or without a comma behind it. -/
def IsField (printf : Printf) (ds : List UInt64) (field : Bool → Text) (f : Text × Json.Value) :
    Prop :=
  ∃ body, (∀ comma, field comma = body ++ commaText comma) ∧
    Emits printf ds body (Json.fieldTokens f)

theorem isField_str (key : String) (value : Text) (hkey : PlainKey key := by decide) :
    IsField printf [] (fieldStr key value) (ascii key, strJson value) := by
  refine ⟨keyText key ++ (ascii "\"" ++ jsonEscape value ++ ascii "\""), ?_, ?_⟩
  · intro comma
    rw [fieldStr, keyText]
    simp only [List.append_assoc]
    rfl
  · exact .of_lexed (.field (closed_keyText key hkey) (closed_quoted value).lexed)

theorem isField_num (key : String) (hd : DoubleConversions printf) {x : UInt64}
    (hx : Finite x) (hkey : PlainKey key := by decide) :
    IsField printf [x] (fieldNum printf key x) (ascii key, numJson printf x) := by
  obtain ⟨c, w, htext, hc, hw⟩ := numText_bytes hd hx
  have hlexed := Json.lexed_number hc hw
  rw [← htext] at hlexed
  refine ⟨keyText key ++ numText printf x, fun comma => rfl, ?_⟩
  have hfield := Json.Lexed.field (v := numJson printf x) (closed_keyText key hkey) hlexed
  exact hfield.congr ⟨fun h y hy => List.mem_singleton.mp hy ▸ h, fun h => h x List.mem_cons_self⟩

theorem isField_int (key : String) (hi : IntegerConversions printf) (v : Int64)
    (hkey : PlainKey key := by decide) :
    IsField printf [] (fieldInt printf key v) (ascii key, intJson printf v) := by
  refine ⟨keyText key ++ intText printf v, fun comma => rfl, .of_lexed ?_⟩
  have hne := decimal_ne_nil v.toInt.natAbs
  obtain ⟨hdigits, hzero⟩ := decimal_parts v.toInt.natAbs (List.length_pos_iff.mpr hne)
  rw [List.take_length] at hdigits hzero
  have hnumber := @isNumber_parts (v.toInt < 0) _ [] hdigits hzero nofun
  rw [List.append_nil, ← intText_eq hi] at hnumber
  obtain ⟨c, w, htext, hc, hw⟩ := @signed_bytes (v.toInt < 0) _ [] hdigits hne nofun
  rw [List.append_nil, ← intText_eq hi] at htext
  have hlexed := Json.lexed_number hc hw
  rw [← htext, hnumber] at hlexed
  exact .field (v := intJson printf v) (closed_keyText key hkey) (hlexed.congr (iff_true_intro rfl))

theorem isField_bool (key : String) (b : Bool) (hkey : PlainKey key := by decide) :
    IsField printf [] (fieldBool key b) (ascii key, .bool b) := by
  refine ⟨keyText key ++ if b then ascii "true" else ascii "false", fun comma => rfl, .of_lexed ?_⟩
  refine .field (v := .bool b) (closed_keyText key hkey) ?_
  rw [Json.Value.tokens]
  cases b with
  | true =>
      exact Json.lexed_word (w := ascii "rue") (by decide) (List.all_eq_true.mp (by decide)) (by decide)
  | false =>
      exact Json.lexed_word (w := ascii "alse") (by decide) (List.all_eq_true.mp (by decide)) (by decide)

/-! ### Commas

The writer decides on each comma by what it knows is still to come. `Tail` is the rest of an
object as seen from behind a field: with more to come it begins a field, with nothing it is
the brace. -/

/-- The rest of an object: if there is `more`, the fields `fs`; then the brace. -/
def Tail (printf : Printf) (ds : List UInt64) (more : Bool) (t : Text)
    (fs : List (Text × Json.Value)) : Prop :=
  if more then fs ≠ [] ∧ Emits printf ds t (Json.memberTokens fs)
  else ds = [] ∧ fs = [] ∧ t = ascii " \x7d"

theorem Tail.nil : Tail printf [] false (ascii " \x7d") [] := ⟨rfl, rfl, rfl⟩

theorem closed_comma : Json.Closed (ascii ", ") [.comma] := fun _ => rfl

theorem delimited_comma : Json.Delimited (ascii ", ") :=
  ⟨ch ',', [ch ' '], by decide, rfl⟩

/-- **A field has a comma behind it exactly where there is more.** -/
theorem Tail.field {ds ds' : List UInt64} {field : Bool → Text} {f : Text × Json.Value}
    {more : Bool} {t : Text} {fs : List (Text × Json.Value)} (hf : IsField printf ds field f)
    (h : Tail printf ds' more t fs) : Tail printf (ds ++ ds') true (field more ++ t) (f :: fs) := by
  refine ⟨List.cons_ne_nil f fs, ?_⟩
  obtain ⟨body, hbody, hemits⟩ := hf
  rw [hbody, List.append_assoc]
  cases more with
  | true =>
      obtain ⟨hfs, ht⟩ := h
      exact .of_and (hemits.member closed_comma delimited_comma ht hfs)
  | false =>
      obtain ⟨rfl, rfl, rfl⟩ := h
      have hclose : Json.Closed (ascii " \x7d") [.closeObject] := fun _ => rfl
      rw [List.append_nil]
      exact hemits.lastMember hclose ⟨ch ' ', [125], by decide, rfl⟩

/-- An optional field; a comma behind what stands before it is due if it is set or there
is more. -/
theorem Tail.optional {ds ds' : List UInt64} {field : Bool → Text} {key : String} {v : Json.Value}
    {set more more' : Bool} {t : Text} {fs : List (Text × Json.Value)}
    (hmore : more' = (set || more)) (hf : set = true → IsField printf ds field (ascii key, v))
    (h : Tail printf ds' more t fs) :
    Tail printf ((if set then ds else []) ++ ds') more' ((if set then field more else []) ++ t)
      (optional set key v ++ fs) := by
  subst hmore
  cases set with
  | true => exact .field (hf rfl) h
  | false => exact h

/-- An object from its first field on. -/
theorem Tail.object {ds : List UInt64} {s t : Text} {fs : List (Text × Json.Value)}
    (hopen : Json.Closed s [.openObject]) (h : Tail printf ds true t fs) :
    Emits printf ds (s ++ t) (Json.Value.object fs).tokens :=
  .object hopen h.2

/-! ### The hardware -/

/-- The doubles of `"hardware"`. -/
def hardwareDoubles (hw : HardwareContext) : List UInt64 :=
  [hw.loadAvg1m, hw.loadAvg5m, hw.loadAvg15m]

theorem emits_hardware (hi : IntegerConversions printf)
    (hd : DoubleConversions printf) {hw : HardwareContext}
    (hfinite : ∀ x ∈ hardwareDoubles hw, Finite x) :
    Emits printf (hardwareDoubles hw) (ascii "\x7b " ++ (hardwareText printf hw ++ ascii " \x7d"))
      (hardwareJson printf hw).tokens := by
  have hload1 : Finite hw.loadAvg1m := hfinite _ (by simp [hardwareDoubles])
  have hload5 : Finite hw.loadAvg5m := hfinite _ (by simp [hardwareDoubles])
  have hload15 : Finite hw.loadAvg15m := hfinite _ (by simp [hardwareDoubles])
  have hfields :=
    Tail.field (isField_str "cpu_model" hw.cpuModel) <|
    .field (isField_int "nproc" hi (.ofNat hw.nproc.toNat)) <|
    .field (isField_str "governor" hw.governor) <|
    .field (isField_str "kernel" hw.kernel) <|
    .field (isField_bool "preempt_rt" hw.preemptRt) <|
    .optional (Bool.or_true (!hw.display.isEmpty)).symm
      (fun _ => isField_str "display" hw.display) <|
    .optional (Bool.or_true (!hw.glRenderer.isEmpty)).symm
      (fun _ => isField_str "gl_renderer" hw.glRenderer) <|
    .field (isField_num "load_avg_1m" hd hload1) <|
    .field (isField_num "load_avg_5m" hd hload5) <|
    .field (isField_num "load_avg_15m" hd hload15) .nil
  have hopen : Json.Closed (ascii "\x7b ") [.openObject] := fun _ => rfl
  have hobject := hfields.object hopen
  simpa only [hardwareText, hardwareJson, hardwareDoubles, ite_self, List.nil_append,
    List.append_assoc, List.cons_append] using hobject

/-! ### The rows -/

/-- The doubles of a row behind `"alloc_gated"`. -/
def tailDoubles (r : BenchResult) : List UInt64 :=
  (if r.hasJitter then [r.jitterP99Ns, r.jitterMaxNs] else []) ++
  (if r.hasFps then [r.achievedFps] else [])

/-- The doubles of a row. -/
def rowDoubles (r : BenchResult) : List UInt64 :=
  (if r.hasRate then [r.rateHz] else []) ++
  [r.stats.p50, r.stats.p99, r.stats.p999, r.stats.max, r.stats.mean] ++ tailDoubles r

/-- The fields behind `"alloc_gated"`, whose commas are worked out one by one. -/
theorem tail_jitter (hd : DoubleConversions printf) {r : BenchResult}
    (hfinite : ∀ x ∈ tailDoubles r, Finite x) :
    Tail printf (tailDoubles r) (r.hasJitter || r.hasFps || !r.notes.isEmpty)
      ((if r.hasJitter then
          fieldNum printf "jitter_p99" r.jitterP99Ns true ++
          fieldNum printf "jitter_max" r.jitterMaxNs (r.hasFps || !r.notes.isEmpty)
        else []) ++
        ((if r.hasFps then fieldNum printf "achieved_fps" r.achievedFps (!r.notes.isEmpty) else []) ++
        ((if !r.notes.isEmpty then fieldStr "notes" r.notes false else []) ++ ascii " \x7d")))
      (optional r.hasJitter "jitter_p99" (numJson printf r.jitterP99Ns) ++
        (optional r.hasJitter "jitter_max" (numJson printf r.jitterMaxNs) ++
        (optional r.hasFps "achieved_fps" (numJson printf r.achievedFps) ++
        optional (!r.notes.isEmpty) "notes" (strJson r.notes)))) := by
  have hfps : r.hasFps = true → Finite r.achievedFps := fun h =>
    hfinite _ (List.mem_append_right _ (by rw [if_pos h]; exact List.mem_cons_self))
  have hjitter : r.hasJitter = true → Finite r.jitterP99Ns ∧ Finite r.jitterMaxNs := by
    intro h
    have hboth : ∀ x ∈ [r.jitterP99Ns, r.jitterMaxNs], Finite x := by
      intro x hx
      apply hfinite x
      rw [tailDoubles, if_pos h]
      exact List.mem_append_left _ hx
    exact ⟨hboth _ List.mem_cons_self, hboth _ (List.mem_cons_of_mem _ List.mem_cons_self)⟩
  have hrest :=
    Tail.optional rfl (fun h => isField_num "achieved_fps" hd (hfps h)) <|
    .optional (Bool.or_false (!r.notes.isEmpty)).symm
      (fun _ => isField_str "notes" r.notes) .nil
  rw [ite_self, List.nil_append, List.append_nil, List.append_nil] at hrest
  rw [tailDoubles, Bool.or_assoc]
  cases hset : r.hasJitter with
  | true =>
      obtain ⟨hp99, hmax⟩ := hjitter hset
      have hboth := Tail.field (isField_num "jitter_p99" hd hp99)
        (.field (isField_num "jitter_max" hd hmax) hrest)
      simp only [if_true, List.append_assoc]
      exact hboth
  | false => exact hrest

theorem emits_row (hi : IntegerConversions printf)
    (hd : DoubleConversions printf) {r : BenchResult}
    (hfinite : ∀ x ∈ rowDoubles r, Finite x) :
    Emits printf (rowDoubles r)
      (ascii "    \x7b " ++ (rowHead printf r ++ (rowTail printf r ++ ascii " \x7d")))
      (rowJson printf r).tokens := by
  have hrate : r.hasRate = true → Finite r.rateHz := by
    intro h
    apply hfinite
    simp only [rowDoubles, if_pos h, List.mem_append, List.mem_singleton, true_or]
  have hstats : ∀ x ∈ [r.stats.p50, r.stats.p99, r.stats.p999, r.stats.max, r.stats.mean],
      Finite x := fun x hx =>
    hfinite x (List.mem_append_left _ (List.mem_append_right _ hx))
  have htail := tail_jitter hd fun x hx => hfinite x (List.mem_append_right _ hx)
  have hfields :=
    Tail.field (isField_str "name" r.name) <|
    .field (isField_str "layer" r.layer) <|
    .optional (Bool.or_true (!r.group.isEmpty)).symm
      (fun _ => isField_str "group" r.group) <|
    .optional (Bool.or_true (!r.mode.isEmpty)).symm
      (fun _ => isField_str "mode" r.mode) <|
    .field (isField_int "payload_bytes" hi r.payloadBytes.toInt64) <|
    .field (isField_bool "contended" r.contended) <|
    .field (isField_str "unit" (ascii "ns")) <|
    .optional (Bool.or_true r.hasRate).symm
      (fun h => isField_num "rate_hz" hd (hrate h)) <|
    .field (isField_int "batch" hi r.batch.toInt64) <|
    .field (isField_int "samples" hi r.stats.samples.toInt64) <|
    .field (isField_num "p50" hd (hstats r.stats.p50 (by simp))) <|
    .field (isField_num "p99" hd (hstats r.stats.p99 (by simp))) <|
    .field (isField_num "p999" hd (hstats r.stats.p999 (by simp))) <|
    .field (isField_num "max" hd (hstats r.stats.max (by simp))) <|
    .field (isField_num "mean" hd (hstats r.stats.mean (by simp))) <|
    .field (isField_int "allocations" hi r.allocations.toInt64) <|
    .field (isField_bool "alloc_gated" r.allocGated) htail
  have hopen : Json.Closed (ascii "    \x7b ") [.openObject] := fun _ => rfl
  have hobject := hfields.object hopen
  simpa only [rowHead, rowTail, rowJson, rowDoubles, ite_self, List.nil_append,
    List.append_assoc, List.cons_append] using hobject

/-- The rows and the bracket behind them. -/
theorem emits_rows (hi : IntegerConversions printf)
    (hd : DoubleConversions printf) {results : List BenchResult}
    (hfinite : ∀ x ∈ results.flatMap rowDoubles, Finite x) :
    Emits printf (results.flatMap rowDoubles) (rowsText printf results ++ ascii "  ]")
      (Json.itemTokens (results.map (rowJson printf))) := by
  induction results with
  | nil =>
      have hclose : Json.Closed (ascii "  ]") [.closeArray] := fun _ => rfl
      exact .of_lexed hclose.lexed
  | cons r rs ih =>
      rw [List.flatMap_cons] at hfinite ⊢
      have hrow := emits_row hi hd fun x hx => hfinite x (List.mem_append_left _ hx)
      have hrows := ih fun x hx => hfinite x (List.mem_append_right _ hx)
      cases rs with
      | nil =>
          have hclose : Json.Closed (ascii "\n  ]") [.closeArray] := fun _ => rfl
          have hlast := hrow.lastItem hclose ⟨ch '\n', ascii "  ]", by decide, rfl⟩
          rw [List.flatMap_nil, List.append_nil]
          simp only [rowsText, List.isEmpty_nil, if_true, List.append_assoc] at hlast ⊢
          exact hlast
      | cons r' rs =>
          have hsep : Json.Closed (ascii ",\n") [.comma] := fun _ => rfl
          have hitem := hrow.item hsep ⟨ch ',', [ch '\n'], by decide, rfl⟩ hrows (by simp)
          rw [rowsText]
          simp only [List.isEmpty_cons, Bool.false_eq_true, if_false, List.append_assoc] at hitem ⊢
          exact .of_and hitem

/-! ### The failures -/

/-- The failures behind the first, and the bracket. -/
theorem closed_failures_succ (i : Nat) (failures : List Text) :
    Json.Closed (failuresText (i + 1) failures ++ ascii "]")
      (Json.restItems (failures.map strJson)) := by
  induction failures generalizing i with
  | nil => exact fun _ => by rw [List.map_nil, Json.restItems]; rfl
  | cons f failures ih =>
      have h := closed_comma.closed_append ((closed_quoted f).closed_append (ih (i + 1)))
      have hrest : Json.restItems ((f :: failures).map strJson) =
          [.comma] ++ ([.string (cleaned f)] ++ Json.restItems (failures.map strJson)) := by
        rw [List.map_cons, Json.restItems, strJson, Json.Value.tokens]
        rfl
      rw [hrest]
      simp only [failuresText, Nat.succ_ne_zero, if_false, List.append_assoc] at h ⊢
      exact h

theorem closed_failures (failures : List Text) :
    Json.Closed (failuresText 0 failures ++ ascii "]") (Json.itemTokens (failures.map strJson)) := by
  cases failures with
  | nil => exact fun _ => rfl
  | cons f failures =>
      have h := (closed_quoted f).closed_append (closed_failures_succ 0 failures)
      rw [List.map_cons, Json.itemTokens, strJson, Json.Value.tokens]
      simp only [failuresText, if_true, List.append_assoc] at h ⊢
      exact h

/-- `"alloc_gate"`. -/
theorem emits_gate (failures : List Text) :
    Emits printf []
      (ascii "\x7b " ++ (fieldBool "passed" failures.isEmpty true ++
        (keyText "failures" ++ (ascii "[" ++ (failuresText 0 failures ++ ascii "]")) ++
          ascii " \x7d")))
      (Json.Value.object [(ascii "passed", .bool failures.isEmpty),
        (ascii "failures", .array (failures.map strJson))]).tokens := by
  have hbracket : Json.Closed (ascii "[") [.openArray] := fun _ => rfl
  have hopen : Json.Closed (ascii "\x7b ") [.openObject] := fun _ => rfl
  have hclose : Json.Closed (ascii " \x7d") [.closeObject] := fun _ => rfl
  have harray := Json.Lexed.array hbracket (closed_failures failures).lexed
  have hfield := Json.Lexed.field (closed_keyText "failures") harray
  have hlast := hfield.lastMember hclose ⟨ch ' ', [125], by decide, rfl⟩
  have htail : Tail printf [] true _ _ := ⟨List.cons_ne_nil _ _, .of_lexed hlast⟩
  exact (Tail.field (isField_bool "passed" failures.isEmpty) htail).object hopen

/-! ### The report -/

/-- The doubles of a report. -/
def reportDoubles (hw : HardwareContext) (results : List BenchResult) (scale : UInt64) :
    List UInt64 :=
  scale :: (hardwareDoubles hw ++ results.flatMap rowDoubles)

/-- The report, up to the line feed at its end. Its pieces are the fields, and what holds
them together is always good. -/
theorem emits_report (hi : IntegerConversions printf)
    (hd : DoubleConversions printf) (schema now : Text) {hw : HardwareContext}
    {results : List BenchResult} (smoke : Bool) {scale : UInt64} (gateFailures : List Text)
    (hfinite : ∀ x ∈ reportDoubles hw results scale, Finite x) :
    ∃ t, writeJsonReport printf schema now hw results smoke scale gateFailures = t ++ [ch '\n'] ∧
      Emits printf (reportDoubles hw results scale) t
        (reportJson printf schema now hw results smoke scale gateFailures).tokens := by
  obtain ⟨hscale, hrest⟩ := List.forall_mem_cons.mp hfinite
  obtain ⟨hhw, hrows⟩ := List.forall_mem_append.mp hrest
  have hsep : Json.Closed (ascii ",\n  ") [.comma] := fun _ => rfl
  have hdelim : Json.Delimited (ascii ",\n  ") := ⟨ch ',', ascii "\n  ", by decide, rfl⟩
  -- from the last field to the first
  have hbracket : Json.Closed (ascii "[\n") [.openArray] := fun _ => rfl
  have hclose : Json.Closed (ascii "\n\x7d") [.closeObject] := fun _ => rfl
  have hbenchmarks :=
    (Json.Lexed.field (closed_keyText "benchmarks")
      (.array hbracket (emits_rows hi hd hrows))).lastMember hclose ⟨ch '\n', [125], by decide, rfl⟩
  have hgate :=
    (Json.Lexed.field (closed_keyText "alloc_gate")
      (@emits_gate printf gateFailures)).member hsep hdelim hbenchmarks (by simp)
  have hhardware :=
    (Json.Lexed.field (closed_keyText "hardware")
      (emits_hardware hi hd hhw)).member hsep hdelim hgate (by simp)
  obtain ⟨body, hbody, hemits⟩ := isField_num "scale" hd hscale
  have hnumbers := hemits.member hsep hdelim hhardware (by simp)
  have htail : Tail printf (reportDoubles hw results scale) true _ _ :=
    ⟨List.cons_ne_nil _ _, hnumbers.congr (by simp [reportDoubles, forall_and, or_imp])⟩
  have hopen : Json.Closed (ascii "\x7b\n  ") [.openObject] := fun _ => rfl
  have hobject := (Tail.field (isField_str "schema" schema)
    (.field (isField_str "generated_at_utc" now)
      (.field (isField_bool "smoke" smoke) htail))).object hopen
  refine ⟨_, ?_, hobject⟩
  have hhardwareText : ascii ",\n  \"hardware\": \x7b " =
      ascii ",\n  " ++ (keyText "hardware" ++ ascii "\x7b ") := rfl
  have hgateText : ascii " \x7d,\n  \"alloc_gate\": \x7b " =
      ascii " \x7d" ++ (ascii ",\n  " ++ (keyText "alloc_gate" ++ ascii "\x7b ")) := rfl
  have hfailuresText : ascii "\"failures\": [" = keyText "failures" ++ ascii "[" := rfl
  have hbenchmarksText : ascii "] \x7d,\n  \"benchmarks\": [\n" =
      ascii "]" ++ (ascii " \x7d" ++ (ascii ",\n  " ++ (keyText "benchmarks" ++ ascii "[\n"))) := rfl
  have hcloseText : ascii "  ]\n\x7d\n" = ascii "  ]" ++ (ascii "\n\x7d" ++ [ch '\n']) := rfl
  have hcomma : commaText false = [] := rfl
  rw [writeJsonReport, hbody, hhardwareText, hgateText, hfailuresText, hbenchmarksText, hcloseText,
    hcomma]
  simp only [List.append_assoc, List.nil_append]

end

/-- **When the report is JSON.** For all rows, failures and byte strings, with finite
doubles: the report is read as `reportJson`, which has every field that is set, every
string as it was cleaned and the rows and failures in order, exactly where no double in it
has 62 characters before the point. Else it is no JSON at all. -/
theorem report_parses_iff {printf : Printf} (hi : IntegerConversions printf)
    (hd : DoubleConversions printf) (schema now : Text) (hw : HardwareContext)
    (results : List BenchResult) (smoke : Bool) (scale : UInt64) (gateFailures : List Text)
    (hfinite : ∀ x ∈ reportDoubles hw results scale, Finite x) :
    (Json.parse (writeJsonReport printf schema now hw results smoke scale gateFailures) =
          some (reportJson printf schema now hw results smoke scale gateFailures) ↔
        ∀ x ∈ reportDoubles hw results scale, wholeLength x ≠ 62) ∧
      ((∃ x ∈ reportDoubles hw results scale, wholeLength x = 62) →
        Json.parse (writeJsonReport printf schema now hw results smoke scale gateFailures) = none) := by
  obtain ⟨t, htext, hemits⟩ := emits_report hi hd schema now smoke gateFailures hfinite
  have hlexed : Json.Lexed (∀ x ∈ reportDoubles hw results scale, wholeLength x ≠ 62) t
      (reportJson printf schema now hw results smoke scale gateFailures).tokens :=
    hemits.congr (forall₂_congr fun x hx => isNumber_numText hd (hfinite x hx))
  obtain ⟨hparses, hfails⟩ := hlexed.parse_eq
  rw [htext]
  refine ⟨⟨fun hparse => ?_, hparses⟩, ?_⟩
  · by_contra hlong
    rw [show t ++ [ch '\n'] = t ++ [Json.byte '\n'] from rfl, hfails hlong] at hparse
    cases hparse
  · intro hlong
    obtain ⟨x, hx, hlength⟩ := hlong
    exact hfails fun h => h x hx hlength

/-- A host of which little is known. -/
def unknownHost : HardwareContext where
  cpuModel := ascii "unknown"
  governor := ascii "unknown"
  kernel := ascii "unknown"
  preemptRt := false
  nproc := 4
  loadAvg1m := 0xBFF0000000000000
  loadAvg5m := 0xBFF0000000000000
  loadAvg15m := 0xBFF0000000000000
  display := []
  glRenderer := ascii "llvmpipe"

/-- A paced row with a quote in its notes. -/
def pacedRow : BenchResult where
  name := ascii "paced/latest_store/64B"
  layer := ascii "path"
  payloadBytes := 64
  contended := false
  batch := 1
  stats := ⟨0x3FF8000000000000, 0, 0, 0, 0, 7⟩
  allocations := 0
  allocGated := true
  hasJitter := true
  jitterP99Ns := 0x3FF8000000000000
  jitterMaxNs := 0x3FF8000000000000
  group := ascii "paced"
  mode := []
  rateHz := 0x3FF8000000000000
  achievedFps := 0xBFF0000000000000
  notes := ascii "a \"b\"\n"

/-- A report with a row, two failures, and a bell in one of them. -/
theorem report_parses_pacedRow :
    Json.parse (writeJsonReport cPrintf (ascii "xmbase-bench-v1") (ascii "2026-01-01T00:00:00Z")
        unknownHost [pacedRow] true 0x3FF0000000000000 [ascii "f\x07", ascii "g"]) =
      some (reportJson cPrintf (ascii "xmbase-bench-v1") (ascii "2026-01-01T00:00:00Z")
        unknownHost [pacedRow] true 0x3FF0000000000000 [ascii "f", ascii "g"]) :=
  (report_parses_iff cPrintf_integers cPrintf_doubles _ _ unknownHost [pacedRow] true _
    [ascii "f\x07", ascii "g"] (List.all_iff_forall_prop.mp (by decide +kernel))).1.mpr
    (List.all_iff_forall_prop.mp (by decide +kernel))

/-- The double `2 ^ 203`, of 62 digits. -/
def twoToTheTwoHundredThree : UInt64 := 0x4CA0000000000000

/-- With `2 ^ 203` for `scale` the number of that field ends in its point. -/
theorem report_unparsed_twoToTheTwoHundredThree :
    IntegerConversions cPrintf ∧ DoubleConversions cPrintf ∧
      (∀ x ∈ reportDoubles unknownHost [] twoToTheTwoHundredThree, Finite x) ∧
      numText cPrintf twoToTheTwoHundredThree =
        ascii "12855504354071922204335696738729300820177623950262342682411008." ∧
      Json.parse (writeJsonReport cPrintf (ascii "xmbase-bench-v1") (ascii "2026-01-01T00:00:00Z")
        unknownHost [] false twoToTheTwoHundredThree []) = none :=
  ⟨cPrintf_integers, cPrintf_doubles, List.all_iff_forall_prop.mp (by decide +kernel),
    by decide +kernel, Option.isNone_iff_eq_none.mp (by decide +kernel)⟩

end XmBase.Testing
