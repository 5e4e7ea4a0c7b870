import XmBase.Telemetry.Format
/-!
# XmBase.Telemetry.ConsoleFormat

The spec-subset formatter of the console binding
(`src/telemetry_console_binding.cpp`): `ParseSpec`, `RenderNumeric`, `RenderArg` and
`FormatMessage`. A placeholder is `{}` or `{:[0][width][.prec][type]}`; any other
body, and a spec that does not apply to the argument's type, renders the argument
in its default form.
-/

namespace XmBase.Telemetry

/-- `FmtSpec`; `-1` is unset, type `0` the default of the argument's type. A spec that is
not `ok` is ignored by every rendering. -/
structure FmtSpec where
  ok : Bool
  zero : Bool
  width : Int
  prec : Int
  type : UInt8
  deriving DecidableEq, Repr

/-- `FmtSpec{}`. -/
def FmtSpec.none : FmtSpec := ⟨false, false, -1, -1, 0⟩

def kMaxWidth : Int := 96

def kMaxPrec : Int := 64

/-- The code of a character. -/
def ch (c : Char) : UInt8 := .ofNat c.toNat

def isDigit (c : UInt8) : Bool := ch '0' ≤ c && c ≤ ch '9'

/-! ### Parsing a spec

`ParseSpec` is one pass over the body, with an early return wherever it goes wrong. Its
three parts are functions of their own here; a spec that was given up has `ok` unset, and
what it has read by then is of no account. -/

/-- The digit loops of `ParseSpec`: the value, clamped on the way, and the rest. -/
def parseDigits (max : Int) (w : Int) : Text → Int × Text
  | [] => (w, [])
  | c :: s =>
      if isDigit c then
        let w := w * 10 + (c.toNat - (ch '0').toNat)
        let w := if w > max then max else w
        parseDigits max w s
      else (w, c :: s)

/-- `strchr(s, c) != nullptr`: the terminator is found too. -/
def strchr (s : Text) (c : UInt8) : Bool := c = 0 || s.contains c

/-- The last part of `ParseSpec`: an optional type letter, and then the end. -/
def parseType (spec : FmtSpec) : Text → FmtSpec
  | [] => { spec with ok := true }
  | c :: s =>
      if strchr (ascii "fFeEgGdxXos") c then { spec with type := c, ok := s.isEmpty }
      else spec

/-- The middle part of `ParseSpec`: an optional precision. -/
def parsePrec (spec : FmtSpec) : Text → FmtSpec
  | [] => parseType spec []
  | c :: s =>
      if c = ch '.' then
        match s with
        | [] => spec
        | d :: s' =>
            if isDigit d then
              let (p, s) := parseDigits kMaxPrec 0 (d :: s')
              parseType { spec with prec := p } s
            else spec
      else parseType spec (c :: s)

/-- The first part of `ParseSpec`: an optional width. -/
def parseWidth (spec : FmtSpec) : Text → FmtSpec
  | [] => parsePrec spec []
  | c :: s =>
      if isDigit c then
        let (w, s) := parseDigits kMaxWidth 0 (c :: s)
        parsePrec { spec with width := w } s
      else parsePrec spec (c :: s)

/-- `ParseSpec` of the text between `:` and the closing brace. -/
def parseSpec : Text → FmtSpec
  | [] => parseWidth .none []
  | c :: s =>
      if c = ch '0' then parseWidth { FmtSpec.none with zero := true } s
      else parseWidth .none (c :: s)

/-- The spec `FormatMessage` takes from the body of a placeholder. -/
def bodySpec : Text → FmtSpec
  | [] => { FmtSpec.none with ok := true }
  | c :: s => if c = ch ':' then parseSpec s else .none

example : parseSpec (ascii "08.3f") = ⟨true, true, 8, 3, ch 'f'⟩ := by decide +kernel

/-! ### Rendering

One branch for each type of value, and in each the specs that it understands. What it does
not understand falls through to the default of the type. -/

/-- A non-negative `int` in decimal. -/
def decimal (n : Int) : Text := (Nat.toDigits 10 n.toNat).map ch

/-- The conversion `%[0][width][.prec]<conv>` that `RenderNumeric` builds in `pf[24]`. -/
def conversion (spec : FmtSpec) (conv : Text) : Text :=
  let zero := if spec.zero then ascii "0" else []
  let width := if spec.width ≥ 0 then decimal spec.width else []
  let prec := if spec.prec ≥ 0 then ascii "." ++ decimal spec.prec else []
  (ascii "%" ++ zero ++ width ++ prec ++ conv).take 23

/-- The characters `RenderNumeric` appends: what fits in `tmp[192]`. `snprintf` leaves room
for the terminator. -/
def numericText (printf : Printf) (spec : FmtSpec) (conv : Text) (arg : PrintfArg) : Text :=
  (printf (conversion spec conv) arg).take 191

/-- `RenderNumeric`. -/
def renderNumeric (printf : Printf) (cap : Nat) (out : Text) (spec : FmtSpec) (conv : Text)
    (arg : PrintfArg) : Text :=
  appendRaw cap out (numericText printf spec conv arg)

/-- The type letter is one of these. -/
def FmtSpec.typeIn (spec : FmtSpec) (letters : String) : Bool := (ascii letters).contains spec.type

/-- `RenderArg` on the value it reads. -/
def renderValue (printf : Printf) (cap : Nat) (out : Text) (spec : FmtSpec) : Value → Text
  | .bool v =>
      let s := if v then ascii "true" else ascii "false"
      if spec.ok && spec.prec < 0 && spec.typeIn "dxXo" then
        renderNumeric printf cap out spec (ascii "ll" ++ [spec.type]) (.int (if v then 1 else 0))
      else if spec.ok && (spec.type = ch 's' || spec.type = 0) && !spec.zero then
        -- a precision means nothing for the text of a bool
        renderNumeric printf cap out { spec with prec := -1 } (ascii "s") (.str s)
      else appendRaw cap out s
  | .i64 v =>
      if spec.ok && spec.prec < 0 && (spec.type = ch 'd' || spec.type = 0) then
        renderNumeric printf cap out spec (ascii "lld") (.int v)
      else if spec.ok && spec.prec < 0 && spec.typeIn "xXo" then
        renderNumeric printf cap out spec (ascii "ll" ++ [spec.type]) (.uint v.toUInt64)
      else renderNumeric printf cap out .none (ascii "lld") (.int v)
  | .u64 v =>
      if spec.ok && spec.prec < 0 && (spec.type = 0 || spec.type = ch 'd') then
        renderNumeric printf cap out spec (ascii "llu") (.uint v)
      else if spec.ok && spec.prec < 0 && spec.typeIn "xXo" then
        renderNumeric printf cap out spec (ascii "ll" ++ [spec.type]) (.uint v)
      else renderNumeric printf cap out .none (ascii "llu") (.uint v)
  | .f64 bits =>
      if spec.ok && (spec.typeIn "fFeEgG" || spec.type = 0) then
        renderNumeric printf cap out spec [if spec.type = 0 then ch 'g' else spec.type]
          (.double bits)
      else renderNumeric printf cap out .none (ascii "g") (.double bits)
  | .str s =>
      if spec.ok && (spec.type = ch 's' || spec.type = 0) && !spec.zero then
        let n := if spec.prec ≥ 0 ∧ spec.prec.toNat < s.length then spec.prec.toNat else s.length
        if spec.width > n then
          -- text first, pad after
          appendRaw cap (appendRaw cap out (s.take n))
            (List.replicate (spec.width.toNat - n) (ch ' '))
        else appendRaw cap out (s.take n)
      else appendRaw cap out s

/-- `RenderArg`. -/
def renderArg (printf : Printf) (cap : Nat) (out : Text) (p : ArgPack) (i : UInt8)
    (spec : FmtSpec) : Text :=
  renderValue printf cap out spec (p.entry i.toNat)

/-- `FormatMessage`: the text before the terminator. -/
def formatMessage (printf : Printf) (cap : Nat) (fmt : Text) (args : ArgPack) : Text :=
  scan cap args.count (fun body next out => renderArg printf cap out args next (bodySpec body))
    fmt 0 []

/-! ### What is rendered

Rendering only ever appends, as far as there is room. So it is a text of the value, cut
(`renderValue_eq`), and the scanner's theorem applies. -/

/-- The text of a value under a spec, whatever room there is for it. -/
def valueText (printf : Printf) (spec : FmtSpec) : Value → Text
  | .bool v =>
      let s := if v then ascii "true" else ascii "false"
      if spec.ok && spec.prec < 0 && spec.typeIn "dxXo" then
        numericText printf spec (ascii "ll" ++ [spec.type]) (.int (if v then 1 else 0))
      else if spec.ok && (spec.type = ch 's' || spec.type = 0) && !spec.zero then
        numericText printf { spec with prec := -1 } (ascii "s") (.str s)
      else s
  | .i64 v =>
      if spec.ok && spec.prec < 0 && (spec.type = ch 'd' || spec.type = 0) then
        numericText printf spec (ascii "lld") (.int v)
      else if spec.ok && spec.prec < 0 && spec.typeIn "xXo" then
        numericText printf spec (ascii "ll" ++ [spec.type]) (.uint v.toUInt64)
      else numericText printf .none (ascii "lld") (.int v)
  | .u64 v =>
      if spec.ok && spec.prec < 0 && (spec.type = 0 || spec.type = ch 'd') then
        numericText printf spec (ascii "llu") (.uint v)
      else if spec.ok && spec.prec < 0 && spec.typeIn "xXo" then
        numericText printf spec (ascii "ll" ++ [spec.type]) (.uint v)
      else numericText printf .none (ascii "llu") (.uint v)
  | .f64 bits =>
      if spec.ok && (spec.typeIn "fFeEgG" || spec.type = 0) then
        numericText printf spec [if spec.type = 0 then ch 'g' else spec.type] (.double bits)
      else numericText printf .none (ascii "g") (.double bits)
  | .str s =>
      if spec.ok && (spec.type = ch 's' || spec.type = 0) && !spec.zero then
        let n := if spec.prec ≥ 0 ∧ spec.prec.toNat < s.length then spec.prec.toNat else s.length
        s.take n ++ List.replicate (spec.width.toNat - n) (ch ' ')
      else s

theorem renderNumeric_eq (printf : Printf) {cap : Nat} {out : Text} (spec : FmtSpec) (conv : Text)
    (arg : PrintfArg) (hout : out.length ≤ cap - 1) :
    renderNumeric printf cap out spec conv arg =
      cut cap (out ++ numericText printf spec conv arg) :=
  appendRaw_eq _ hout

theorem renderValue_eq (printf : Printf) {cap : Nat} {out : Text} (spec : FmtSpec) (v : Value)
    (hout : out.length ≤ cap - 1) :
    renderValue printf cap out spec v = cut cap (out ++ valueText printf spec v) := by
  cases v with
  | bool v =>
      simp only [renderValue, valueText]
      split_ifs
      all_goals first
        | exact renderNumeric_eq printf _ _ _ hout
        | exact appendRaw_eq _ hout
  | i64 v =>
      simp only [renderValue, valueText]
      split_ifs <;> exact renderNumeric_eq printf _ _ _ hout
  | u64 v =>
      simp only [renderValue, valueText]
      split_ifs <;> exact renderNumeric_eq printf _ _ _ hout
  | f64 bits =>
      simp only [renderValue, valueText]
      split_ifs <;> exact renderNumeric_eq printf _ _ _ hout
  | str s =>
      simp only [renderValue, valueText]
      generalize (if spec.prec ≥ 0 ∧ spec.prec.toNat < s.length then spec.prec.toNat
        else s.length) = n
      by_cases happly : (spec.ok && (spec.type = ch 's' || spec.type = 0) && !spec.zero) = true
      · rw [if_pos happly, if_pos happly]
        by_cases hpad : spec.width > n
        · rw [if_pos hpad, appendRaw_eq _ hout, appendRaw_eq _ (length_cut_le _ _), cut_cut_append,
            List.append_assoc]
        · have hzero : spec.width.toNat - n = 0 := by omega
          rw [if_neg hpad, hzero, List.replicate_zero, List.append_nil]
          exact appendRaw_eq _ hout
      · rw [if_neg happly, if_neg happly]
        exact appendRaw_eq _ hout

/-- **What `FormatMessage` writes.** -/
theorem formatMessage_eq (printf : Printf) (cap : Nat) (fmt : Text) {p : ArgPack} {vs : List Value}
    (h : Stores p vs) :
    formatMessage printf cap fmt p =
      cut cap (expand (fun body => valueText printf (bodySpec body)) (tokens fmt) vs) := by
  refine scan_eq h.count ?_ fmt
  intro body next v out hv hout
  rw [renderArg, h.entry hv]
  exact renderValue_eq printf _ v hout

end XmBase.Telemetry
