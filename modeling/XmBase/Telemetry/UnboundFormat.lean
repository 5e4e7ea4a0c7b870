import XmBase.Telemetry.Format
/-!
# XmBase.Telemetry.UnboundFormat

The formatter of the unbound state (`src/telemetry_unbound.cpp`): every argument in
its default rendering, whatever stands inside the braces.
-/

namespace XmBase.Telemetry

/-- `PRId64`, as on the LP64 targets. -/
def PRId64 : Text := ascii "ld"

/-- `PRIu64`. -/
def PRIu64 : Text := ascii "lu"

/-- The first `n` characters of `tmp[64]` after an `snprintf` into it that
returned `n`. -/
def readTmp (text : Text) : Text :=
  (List.range text.length).map fun k => (text.take 63).getD k 0

/-- The characters `AppendArg` copies for a value. -/
def defaultText (printf : Printf) : Value → Text
  | .bool v => readTmp (printf (ascii "%s") (.str (if v then ascii "true" else ascii "false")))
  | .i64 v => readTmp (printf (ascii "%" ++ PRId64) (.int v))
  | .u64 v => readTmp (printf (ascii "%" ++ PRIu64) (.uint v))
  | .f64 bits => readTmp (printf (ascii "%g") (.double bits))
  | .str s => s

/-- `AppendArg`. -/
def appendArg (printf : Printf) (cap : Nat) (out : Text) (p : ArgPack) (i : UInt8) : Text :=
  appendRaw cap out (defaultText printf (p.entry i.toNat))

/-- `FormatInto`: the text before the terminator. -/
def formatInto (printf : Printf) (cap : Nat) (fmt : Text) (args : ArgPack) : Text :=
  scan cap args.count (fun _ next out => appendArg printf cap out args next) fmt 0 []

/-- **What `FormatInto` writes.** -/
theorem formatInto_eq (printf : Printf) (cap : Nat) (fmt : Text) {p : ArgPack} {vs : List Value}
    (h : Stores p vs) :
    formatInto printf cap fmt p =
      cut cap (expand (fun _ => defaultText printf) (tokens fmt) vs) := by
  refine scan_eq h.count ?_ fmt
  intro body next v out hv hout
  rw [appendArg, h.entry hv]
  exact appendRaw_eq _ hout

end XmBase.Telemetry
