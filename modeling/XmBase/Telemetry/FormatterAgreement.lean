import XmBase.Telemetry.ConsoleFormat
import XmBase.Telemetry.UnboundFormat
/-!
# XmBase.Telemetry.FormatterAgreement

The unbound formatter ignores what stands inside the braces, the console formatter
honours it. **On a format whose placeholders are empty the two write the same
bytes**, so `FormatInto` of any format is `FormatMessage` of the format with its
placeholder bodies erased (`formatInto_eq_formatMessage`).

The two render through different temporary buffers (`tmp[64]`, `tmp[192]`) and
through different conversions (`PRId64` and `lld`); what is assumed of `snprintf`
is `DefaultConversions`.
-/

namespace XmBase.Telemetry

/-! ### Erasing the bodies

Erasing keeps the braces, so the erased format has the same pieces with empty bodies. The
care is in the escapes: erasing must not bring two braces together that were apart. -/

mutual

/-- The format with the body of every terminated placeholder erased. -/
def eraseBodies : Text → Text
  | [] => []
  | c :: cs =>
      if c = lbrace then
        match cs with
        | [] => [lbrace]
        | c' :: cs' =>
            if c' = lbrace then lbrace :: lbrace :: eraseBodies cs' else eraseBody (c' :: cs') []
      else if c = rbrace then
        match cs with
        | [] => [rbrace]
        | c' :: cs' =>
            if c' = rbrace then rbrace :: rbrace :: eraseBodies cs'
            else rbrace :: eraseBodies (c' :: cs')
      else c :: eraseBodies cs

/-- From inside a placeholder on, whose body so far is `body`. -/
def eraseBody : Text → Text → Text
  -- without its closing brace the placeholder stays as it is
  | [], body => lbrace :: body
  | c :: cs, body =>
      if c = rbrace then lbrace :: rbrace :: eraseBodies cs else eraseBody cs (body ++ [c])

end

/-- A piece of a format without its placeholder body. -/
def Token.erase : Token → Token
  | .char c => .char c
  | .placeholder _ => .placeholder []

section

variable {cs body : Text}

theorem eraseBodies_lbrace_lbrace (cs : Text) :
    eraseBodies (lbrace :: lbrace :: cs) = lbrace :: lbrace :: eraseBodies cs := by
  rw [eraseBodies.eq_def]
  simp only [if_true]

theorem eraseBodies_rbrace_rbrace (cs : Text) :
    eraseBodies (rbrace :: rbrace :: cs) = rbrace :: rbrace :: eraseBodies cs := by
  have hne : rbrace ≠ lbrace := by decide
  rw [eraseBodies.eq_def]
  simp only [if_true, if_neg hne]

theorem eraseBodies_lbrace (h : cs.head? ≠ some lbrace) :
    eraseBodies (lbrace :: cs) = eraseBody cs [] := by
  rw [eraseBodies.eq_def]
  cases cs with
  | nil => rfl
  | cons c cs =>
      have hc : c ≠ lbrace := fun hc => h (by rw [hc, List.head?_cons])
      simp only [if_true, if_neg hc]

theorem eraseBodies_char {c : UInt8} (hl : c ≠ lbrace) (hr : c = rbrace → cs.head? ≠ some rbrace) :
    eraseBodies (c :: cs) = c :: eraseBodies cs := by
  rw [eraseBodies.eq_def]
  simp only [if_neg hl]
  by_cases hc : c = rbrace
  · subst hc
    cases cs with
    | nil => rfl
    | cons c' cs =>
        have hc' : c' ≠ rbrace := fun h => hr rfl (by rw [h, List.head?_cons])
        simp only [if_true, if_neg hc']
  · simp only [if_neg hc]

theorem eraseBody_append (hbody : rbrace ∉ body) (seen cs : Text) :
    eraseBody (body ++ rbrace :: cs) seen = lbrace :: rbrace :: eraseBodies cs := by
  induction body generalizing seen with
  | nil => rw [List.nil_append, eraseBody, if_pos rfl]
  | cons c body ih =>
      obtain ⟨hc, hbody⟩ := not_or.mp (fun h => hbody (List.mem_cons.mpr h))
      rw [List.cons_append, eraseBody, if_neg (Ne.symm hc), ih hbody]

theorem eraseBody_unterminated (hbody : rbrace ∉ body) (seen : Text) :
    eraseBody body seen = lbrace :: (seen ++ body) := by
  induction body generalizing seen with
  | nil => rw [eraseBody, List.append_nil]
  | cons c body ih =>
      obtain ⟨hc, hbody⟩ := not_or.mp (fun h => hbody (List.mem_cons.mpr h))
      rw [eraseBody, if_neg (Ne.symm hc), ih hbody, List.append_assoc, List.singleton_append]

end

/-- Erasing keeps the first character, so it makes no new escape. -/
theorem Reads.head?_eraseBodies {cs : Text} {ts : List Token} (h : Reads cs ts) :
    (eraseBodies cs).head? = cs.head? := by
  cases h with
  | nil => rfl
  | lbraces => rw [eraseBodies_lbrace_lbrace]; rfl
  | rbraces => rw [eraseBodies_rbrace_rbrace]; rfl
  | placeholder body hbody hopen =>
      rw [eraseBodies_lbrace (by rw [head?_append_cons]; exact hopen), eraseBody_append hbody]
      rfl
  | unterminated hbody hopen =>
      rw [eraseBodies_lbrace hopen, eraseBody_unterminated hbody]
      rfl
  | char hl hr => rw [eraseBodies_char hl hr]; rfl

/-- **The erased format reads as the format does, without the bodies.** -/
theorem Reads.eraseBodies {cs : Text} {ts : List Token} (h : Reads cs ts) :
    Reads (eraseBodies cs) (ts.map Token.erase) := by
  induction h with
  | nil => exact .nil
  | lbraces _ ih =>
      rw [eraseBodies_lbrace_lbrace]
      exact .lbraces ih
  | rbraces _ ih =>
      rw [eraseBodies_rbrace_rbrace]
      exact .rbraces ih
  | placeholder body hbody hopen _ ih =>
      rw [eraseBodies_lbrace (by rw [head?_append_cons]; exact hopen), eraseBody_append hbody]
      exact .placeholder [] List.not_mem_nil (by decide) ih
  | unterminated hbody hopen =>
      rw [eraseBodies_lbrace hopen, eraseBody_unterminated hbody, List.nil_append]
      exact .unterminated hbody hopen
  | char hl hr h ih =>
      rw [eraseBodies_char hl hr]
      exact .char hl (fun hc => by rw [h.head?_eraseBodies]; exact hr hc) ih

theorem tokens_eraseBodies (fmt : Text) :
    tokens (eraseBodies fmt) = (tokens fmt).map Token.erase :=
  (reads_tokens fmt).eraseBodies.eq_tokens.symm

/-! ### The default renderings

Two renderers with different buffers and different spellings of the conversions. What
`snprintf` writes for the defaults is short, so neither buffer cuts it, and then the two
agree. -/

/-- What both formatters rely on: `%s` copies its argument, the two spellings of the
64-bit conversions agree, and the default renderings of numbers are short. -/
structure DefaultConversions (printf : Printf) : Prop where
  str : ∀ s, printf (ascii "%s") (.str s) = s
  int : ∀ v, printf (ascii "%" ++ PRId64) (.int v) = printf (ascii "%lld") (.int v)
  length_int : ∀ v, (printf (ascii "%lld") (.int v)).length ≤ 20
  uint : ∀ v, printf (ascii "%" ++ PRIu64) (.uint v) = printf (ascii "%llu") (.uint v)
  length_uint : ∀ v, (printf (ascii "%llu") (.uint v)).length ≤ 20
  length_double : ∀ bits, (printf (ascii "%g") (.double bits)).length ≤ 13

/-- A short rendering comes out of `tmp[64]` whole. Then nothing behind the terminator is
read either. -/
theorem readTmp_of_length_le {text : Text} (h : text.length ≤ 63) : readTmp text = text := by
  apply List.ext_getElem
  · simp [readTmp]
  · intro i hi hi'
    simp [readTmp, List.take_of_length_le h, List.getElem?_eq_getElem hi']

theorem conversion_default (conv : Text) (h : conv.length ≤ 22) (ok : Bool) :
    conversion { FmtSpec.none with ok := ok } conv = ascii "%" ++ conv := by
  show (ascii "%" ++ [] ++ [] ++ [] ++ conv).take 23 = _
  rw [List.append_nil, List.append_nil, List.append_nil, List.take_of_length_le]
  rw [List.length_append]
  show 1 + conv.length ≤ 23
  omega

/-- A short rendering comes out of `tmp[192]` as it does out of `tmp[64]`. -/
theorem numericText_default (printf : Printf) (conv : Text) (hconv : conv.length ≤ 22) (ok : Bool)
    (arg : PrintfArg) (h : (printf (ascii "%" ++ conv) arg).length ≤ 63) :
    numericText printf { FmtSpec.none with ok := ok } conv arg =
      readTmp (printf (ascii "%" ++ conv) arg) := by
  rw [numericText, conversion_default conv hconv, List.take_of_length_le (by omega),
    readTmp_of_length_le h]

section

variable {printf : Printf}

/-- The default conversions of the numbers. -/
theorem numericText_lld (hp : DefaultConversions printf) (ok : Bool) (v : Int64) :
    numericText printf { FmtSpec.none with ok := ok } (ascii "lld") (.int v) =
      defaultText printf (.i64 v) := by
  have hlen : (printf (ascii "%" ++ ascii "lld") (.int v)).length ≤ 63 :=
    (hp.length_int v).trans (by decide)
  rw [numericText_default printf (ascii "lld") (by decide) ok _ hlen, defaultText, hp.int]
  rfl

theorem numericText_llu (hp : DefaultConversions printf) (ok : Bool) (v : UInt64) :
    numericText printf { FmtSpec.none with ok := ok } (ascii "llu") (.uint v) =
      defaultText printf (.u64 v) := by
  have hlen : (printf (ascii "%" ++ ascii "llu") (.uint v)).length ≤ 63 :=
    (hp.length_uint v).trans (by decide)
  rw [numericText_default printf (ascii "llu") (by decide) ok _ hlen, defaultText, hp.uint]
  rfl

theorem numericText_g (hp : DefaultConversions printf) (ok : Bool) (bits : UInt64) :
    numericText printf { FmtSpec.none with ok := ok } (ascii "g") (.double bits) =
      defaultText printf (.f64 bits) := by
  have hlen : (printf (ascii "%" ++ ascii "g") (.double bits)).length ≤ 63 :=
    (hp.length_double bits).trans (by decide)
  rw [numericText_default printf (ascii "g") (by decide) ok _ hlen, defaultText]
  rfl

theorem defaultText_bool (hp : DefaultConversions printf) (b : Bool) :
    defaultText printf (.bool b) = if b then ascii "true" else ascii "false" := by
  rw [defaultText, hp.str, readTmp_of_length_le]
  cases b <;> decide

/-- **An empty placeholder renders as the unbound formatter does.** -/
theorem valueText_empty (hp : DefaultConversions printf) (v : Value) :
    valueText printf (bodySpec []) v = defaultText printf v := by
  cases v with
  | bool b =>
      show numericText printf { FmtSpec.none with ok := true } (ascii "s") _ = _
      rw [numericText_default printf (ascii "s") (by decide) true, defaultText]
      · rfl
      · rw [show ascii "%" ++ ascii "s" = ascii "%s" from rfl, hp.str]
        cases b <;> decide
  | i64 w => exact numericText_lld hp true w
  | u64 w => exact numericText_llu hp true w
  | f64 bits => exact numericText_g hp true bits
  | str s =>
      show s.take s.length ++ List.replicate (0 - s.length) (ch ' ') = s
      rw [Nat.zero_sub, List.replicate_zero, List.append_nil, List.take_length]

/-- And so does one whose spec is not supported. -/
theorem valueText_unsupported (hp : DefaultConversions printf) {spec : FmtSpec}
    (hok : spec.ok = false) (v : Value) : valueText printf spec v = defaultText printf v := by
  cases v with
  | bool b =>
      rw [defaultText_bool hp]
      simp only [valueText, hok, Bool.false_and, Bool.false_eq_true, if_false]
  | i64 w =>
      simp only [valueText, hok, Bool.false_and, Bool.false_eq_true, if_false]
      exact numericText_lld hp false w
  | u64 w =>
      simp only [valueText, hok, Bool.false_and, Bool.false_eq_true, if_false]
      exact numericText_llu hp false w
  | f64 bits =>
      simp only [valueText, hok, Bool.false_and, Bool.false_eq_true, if_false]
      exact numericText_g hp false bits
  | str s => simp only [valueText, hok, Bool.false_and, Bool.false_eq_true, if_false, defaultText]

end

/-! ### The two formatters -/

/-- Only the bodies that occur matter. Two renderings that agree on those give the same
text. -/
theorem expand_congr {α : Type} {text text' : Text → α → Text} {ts : List Token}
    (h : ∀ body, .placeholder body ∈ ts → text body = text' body) (vs : List α) :
    expand text ts vs = expand text' ts vs := by
  induction ts generalizing vs with
  | nil => rfl
  | cons t ts ih =>
      have hts : ∀ body, .placeholder body ∈ ts → text body = text' body :=
        fun body hb => h body (List.mem_cons_of_mem t hb)
      cases t with
      | char c => rw [expand, expand, ih hts]
      | placeholder body =>
          cases vs with
          | nil => rw [expand, expand, ih hts]
          | cons v vs => rw [expand, expand, ih hts, h body List.mem_cons_self]

theorem expand_erase {α : Type} (text : Text → α → Text) (ts : List Token) (vs : List α) :
    expand text (ts.map Token.erase) vs = expand (fun _ => text []) ts vs := by
  induction ts generalizing vs with
  | nil => rfl
  | cons t ts ih =>
      cases t with
      | char c => rw [List.map_cons, Token.erase, expand, expand, ih]
      | placeholder body =>
          cases vs with
          | nil => rw [List.map_cons, Token.erase, expand, expand, ih]
          | cons v vs => rw [List.map_cons, Token.erase, expand, expand, ih]

/-- Every placeholder of the format is plain or carries a spec outside the subset. -/
def PlainOrUnsupported (fmt : Text) : Prop :=
  ∀ body, .placeholder body ∈ tokens fmt → body = [] ∨ (bodySpec body).ok = false

/-- **The console and the unbound formatter agree**: `FormatInto` writes what
`FormatMessage` writes for the format without its placeholder bodies, and for the
format itself where these are plain or not supported. -/
theorem formatInto_eq_formatMessage (printf : Printf) (hp : DefaultConversions printf)
    (args : List Arg) (cap : Nat) (fmt : Text) :
    formatInto printf cap fmt (packArgs args) =
        formatMessage printf cap (eraseBodies fmt) (packArgs args) ∧
      (PlainOrUnsupported fmt → formatInto printf cap fmt (packArgs args) =
        formatMessage printf cap fmt (packArgs args)) := by
  have hstores := packArgs_stores args
  have hempty : valueText printf (bodySpec []) = defaultText printf := funext (valueText_empty hp)
  rw [formatInto_eq printf cap fmt hstores]
  constructor
  · rw [formatMessage_eq printf cap _ hstores, tokens_eraseBodies, expand_erase, hempty]
  · intro hplain
    rw [formatMessage_eq printf cap fmt hstores]
    congr 1
    apply expand_congr
    intro body hbody
    rcases hplain body hbody with rfl | hok
    · exact hempty.symm
    · exact (funext (valueText_unsupported hp hok)).symm

/-! ### A rendering in decimal -/

/-- A signed number in decimal. -/
def signedDecimal (v : Int) : Text := if v < 0 then ch '-' :: decimal (-v) else decimal v

/-- The conversions without flags, of everything but floating point. -/
def plainPrintf : Printf
  | _, .str s => s
  | _, .int v => signedDecimal v.toInt
  | _, .uint v => decimal v.toNat
  | _, .double _ => ascii "nan"

theorem length_decimal_le {n : Int} {k : Nat} (hk : 0 < k) (hn : n < 10 ^ k) :
    (decimal n).length ≤ k := by
  rw [decimal, List.length_map, Nat.length_toDigits_le_iff (by decide) hk]
  have hpos : 0 < 10 ^ k := Nat.pow_pos (by decide)
  rcases Int.lt_or_le n 0 with hneg | hnn
  · rwa [Int.toNat_of_nonpos hneg.le]
  · rw [← Int.ofNat_lt, Int.toNat_of_nonneg hnn]
    push_cast
    exact hn

theorem plainPrintf_default : DefaultConversions plainPrintf where
  str _ := rfl
  int _ := rfl
  length_int v := by
    have hlo := v.le_toInt
    have hhi := v.toInt_lt
    show (signedDecimal v.toInt).length ≤ 20
    unfold signedDecimal
    split
    · rw [List.length_cons]
      exact Nat.succ_le_succ (length_decimal_le (by decide) (by omega))
    · exact (length_decimal_le (k := 19) (by decide) (by omega)).trans (by decide)
  uint _ := rfl
  length_uint v := by
    have hhi := v.toNat_lt
    exact length_decimal_le (by decide) (by omega)
  length_double _ := by
    show (ascii "nan").length ≤ 13
    decide

/-- A width that the unbound formatter ignores, and a cut in the middle of a number. -/
theorem formatInto_eq_formatMessage_cut :
    formatInto plainPrintf 8 (ascii "a\x7b:5d\x7d \x7b\x7d") (packArgs [.signed (-7), .unsigned 123456]) =
        ascii "a-7 123" ∧
      formatInto plainPrintf 8 (ascii "a\x7b:5d\x7d \x7b\x7d") (packArgs [.signed (-7), .unsigned 123456]) =
        formatMessage plainPrintf 8 (eraseBodies (ascii "a\x7b:5d\x7d \x7b\x7d"))
          (packArgs [.signed (-7), .unsigned 123456]) :=
  ⟨by decide +kernel,
    (formatInto_eq_formatMessage plainPrintf plainPrintf_default _ 8 _).1⟩

end XmBase.Telemetry
